import ChatApp.Lib.Runs
import Mathlib.Data.List.Count

/-!
# Writes over a connection that can be lost

`FPersistentConnection` numbers the writes (`putCounter`), keeps each until the server has answered it
(`outstandingPuts`), and sends what is left again, in order, when a new connection is ready. The answer to a write is
held back (`putsToAck`) while a listen is not answered. A transaction that was sent is given up when the connection is
lost.

- `run_accounted`: in every run each write is in exactly one place, once: outstanding, held back, or told to the block
  of its caller; so no write is lost and no block is called twice;
- the number of listens that are not answered is never negative;
- on a connection that takes writes every outstanding write has been sent, or the answer that makes this happen is
  expected.
-/

namespace ChatApp

open Lib.Runs

/-- `ConnectionState`. -/
inductive ConnectionState
  | disconnected
  | gettingToken
  | connecting
  | authenticating
  | connected
  deriving DecidableEq

/-- `FOutstandingPut`; `hash` says whether the request has one, as those of transactions do. -/
structure OutstandingPut (R : Type) where
  request : R
  hash : Bool
  sent : Bool

/-- The blocks that wait for an answer. -/
inductive RequestCallback
  | put (index : Nat)
  | listen (number : Nat)
  | auth (restoreStateAfterComplete : Bool)
  | stats
  deriving DecidableEq

/-- `FPersistentConnection`, with the writes sent on this connection and the calls of the blocks of writes. A listen, an
`FOutstandingQuery`, is known by a number of its own, that of the listens before it (`listenCounter`). -/
structure Connection (R : Type) where
  connectionState : ConnectionState
  firstConnection : Bool
  authToken : Bool
  putCounter : Nat
  outstandingPuts : List (Nat × OutstandingPut R)
  requestNumber : Nat
  requestCBHash : List (Nat × RequestCallback)
  unackedListensCount : Int
  putsToAck : List (Nat × String)
  listenCounter : Nat
  listens : List Nat
  sentPuts : List Nat
  completed : List (Nat × String)

def kFTransactionDisconnect : String := "disconnect"
def kFErrorWriteCanceled : String := "write_canceled"
def kFWPResponseForActionStatusOk : String := "ok"

namespace FPersistentConnection

variable {R : Type}

def init (R : Type) : Connection R := ⟨.disconnected, true, false, 0, [], 0, [], 0, [], 0, [], [], []⟩

def connected (s : Connection R) : Bool := s.connectionState = .authenticating || s.connectionState = .connected

def canSendWrites (s : Connection R) : Bool := s.connectionState = .connected

def sendAction (s : Connection R) (callback : RequestCallback) : Connection R :=
  { s with requestNumber := s.requestNumber + 1, requestCBHash := (s.requestNumber, callback) :: s.requestCBHash }

/-- `put.sent = YES`. -/
def markSent (index : Nat) (p : Nat × OutstandingPut R) : Nat × OutstandingPut R :=
  if p.1 = index then (p.1, { p.2 with sent := true }) else p

def sendPut (s : Connection R) (index : Nat) : Connection R :=
  sendAction { s with
    outstandingPuts := s.outstandingPuts.map (markSent index), sentPuts := s.sentPuts ++ [index] } (.put index)

def putInternal (s : Connection R) (request : R) (hash : Bool) : Connection R :=
  let s' := { s with
    putCounter := s.putCounter + 1
    outstandingPuts := s.outstandingPuts ++ [(s.putCounter, ⟨request, hash, false⟩)] }
  if canSendWrites s' then sendPut s' s.putCounter else s'

def sendListen (s : Connection R) (number : Nat) : Connection R :=
  { sendAction s (.listen number) with unackedListensCount := s.unackedListensCount + 1 }

def listen (s : Connection R) : Connection R :=
  let s' := { s with listenCounter := s.listenCounter + 1, listens := s.listens ++ [s.listenCounter] }
  if connected s' then sendListen s' s.listenCounter else s'

/-- The request has no block. -/
def unlisten (s : Connection R) (number : Nat) : Connection R :=
  { s with
    listens := s.listens.filter (· ≠ number)
    requestNumber := if s.listens.contains number && connected s then s.requestNumber + 1 else s.requestNumber }

/-- The keys of `outstandingPuts` are in their order, as the source sorts them. The listens are in a dictionary there
and sent in an order of Foundation's; here it is that of their numbers. -/
def restoreState (s : Connection R) : Connection R :=
  (s.outstandingPuts.map Prod.fst).foldl sendPut (s.listens.foldl sendListen s)

def restoreAuth (s : Connection R) : Connection R :=
  if s.authToken then sendAction { s with connectionState := .authenticating } (.auth true)
  else restoreState { s with connectionState := .connected }

def sendConnectStats (s : Connection R) : Connection R := sendAction s .stats

def onReady (s : Connection R) : Connection R :=
  { restoreAuth (if s.firstConnection then sendConnectStats s else s) with firstConnection := false }

def ackPuts (s : Connection R) : Connection R :=
  { s with completed := s.completed ++ s.putsToAck, putsToAck := [] }

/-- The outstanding puts of transactions that were sent. -/
def isSentTransaction (p : Nat × OutstandingPut R) : Bool := p.2.hash && p.2.sent

def cancelSentTransactions (s : Connection R) : Connection R :=
  { s with
    completed := s.completed ++
      (s.outstandingPuts.filter isSentTransaction).map fun p => (p.1, kFTransactionDisconnect)
    outstandingPuts := s.outstandingPuts.filter fun p => !isSentTransaction p }

def onDisconnect (s : Connection R) : Connection R :=
  { cancelSentTransactions { s with connectionState := .disconnected } with
    requestCBHash := [], unackedListensCount := 0, sentPuts := [] }

/-- The block of `sendPut`. -/
def putAnswered (s : Connection R) (index : Nat) (status : String) : Connection R :=
  if (s.outstandingPuts.map Prod.fst).contains index then
    let s' := { s with outstandingPuts := s.outstandingPuts.filter fun p => p.1 ≠ index }
    if s.unackedListensCount = 0 then { s' with completed := s.completed ++ [(index, status)] }
    else { s' with putsToAck := s.putsToAck ++ [(index, status)] }
  else s

/-- The block of `sendListen`. -/
def listenAnswered (s : Connection R) (number : Nat) (status : String) : Connection R :=
  let s' := { s with
    listens := if status = kFWPResponseForActionStatusOk then s.listens else s.listens.filter (· ≠ number)
    unackedListensCount := s.unackedListensCount - 1 }
  if s'.unackedListensCount = 0 then ackPuts s' else s'

/-- The block of `sendAuthAndRestoreStateAfterComplete`. Closing the connection calls `onDisconnect`. -/
def authAnswered (s : Connection R) (restoreStateAfterComplete : Bool) (status : String) : Connection R :=
  let s' := { s with connectionState := .connected }
  if status = kFWPResponseForActionStatusOk then
    if restoreStateAfterComplete then restoreState s' else s'
  else onDisconnect { s' with authToken := false }

def onDataMessage (s : Connection R) (rn : Nat) (status : String) : Connection R :=
  match s.requestCBHash.lookup rn with
  | none => s
  | some callback =>
    let s' := { s with requestCBHash := s.requestCBHash.erase (rn, callback) }
    match callback with
    | .put index => putAnswered s' index status
    | .listen number => listenAnswered s' number status
    | .auth restoreStateAfterComplete => authAnswered s' restoreStateAfterComplete status
    | .stats => s'

def onAuthRevoked (s : Connection R) : Connection R := onDisconnect { s with authToken := false }

/-- `path` tells the listens at the path. -/
def onListenRevoked (s : Connection R) (path : Nat → Bool) : Connection R :=
  { s with listens := s.listens.filter fun number => !path number }

def refreshAuthToken (s : Connection R) (token : Bool) : Connection R :=
  let s' := { s with authToken := token }
  if connected s' then
    if token then sendAction s' (.auth false) else { s' with requestNumber := s.requestNumber + 1 }
  else s'

/-- There is a connection, open or not. -/
def hasRealtime (s : Connection R) : Bool :=
  s.connectionState = .connecting || s.connectionState = .authenticating || s.connectionState = .connected

def interrupt (s : Connection R) : Connection R :=
  if hasRealtime s then onDisconnect s else { s with connectionState := .disconnected }

def purgeOutstandingWrites (s : Connection R) : Connection R :=
  let s' := ackPuts s
  { s' with
    completed := s'.completed ++ s.outstandingPuts.map fun p => (p.1, kFErrorWriteCanceled)
    outstandingPuts := [] }

/-- What happens: calls of the repo, answers of the token provider, and what comes over the connection. -/
inductive Event (R : Type)
  | put (request : R) (hash : Bool)
  | listen
  | unlisten (number : Nat)
  | refreshAuthToken (token : Bool)
  | purgeOutstandingWrites
  | interrupt
  | retry
  | fetchedToken (token : Option Bool)
  | onReady
  | onDataMessage (rn : Nat) (status : String)
  | onAuthRevoked
  | onListenRevoked (path : Nat → Bool)
  | onDisconnect

def step (s : Connection R) : Event R → Option (Connection R)
  | .put request hash => some (putInternal s request hash)
  | .listen => some (listen s)
  | .unlisten number => some (unlisten s number)
  | .refreshAuthToken token => some (refreshAuthToken s token)
  | .purgeOutstandingWrites => some (purgeOutstandingWrites s)
  | .interrupt => some (interrupt s)
  | .retry =>
    if s.connectionState = .disconnected then some { s with connectionState := .gettingToken } else none
  | .fetchedToken token =>
    if s.connectionState = .gettingToken then
      match token with
      | some token => some { s with connectionState := .connecting, authToken := token }
      | none => some { s with connectionState := .disconnected }
    else none
  | .onReady => if s.connectionState = .connecting then some (onReady s) else none
  | .onDataMessage rn status => if connected s then some (onDataMessage s rn status) else none
  | .onAuthRevoked => if connected s then some (onAuthRevoked s) else none
  | .onListenRevoked path => if connected s then some (onListenRevoked s path) else none
  | .onDisconnect => if hasRealtime s then some (onDisconnect s) else none

/-! ## Where the writes are -/

/-- How often a write is outstanding, held back or completed. -/
def places (s : Connection R) (i : Nat) : Nat :=
  s.outstandingPuts.countP (·.1 = i) + s.putsToAck.countP (·.1 = i) + s.completed.countP (·.1 = i)

/-- The answer that makes the connection send what is outstanding. -/
def Restoring (s : Connection R) : Prop := ∃ rn, (rn, RequestCallback.auth true) ∈ s.requestCBHash

def isListen : RequestCallback → Bool
  | .listen _ => true
  | _ => false

/-- The accounts: of the writes, and of the listens that are not answered. -/
structure Accounted (s : Connection R) : Prop where
  places : ∀ i, places s i = if i < s.putCounter then 1 else 0
  unacked : s.unackedListensCount = s.requestCBHash.countP (isListen ·.2)

structure Inv (s : Connection R) : Prop extends Accounted s where
  restoring : s.connectionState = .authenticating → Restoring s
  sent : s.connectionState = .connected → (∀ p ∈ s.outstandingPuts, p.1 ∈ s.sentPuts) ∨ Restoring s

variable {s : Connection R}

/-! ## Sending -/

@[simp] theorem markSent_fst (index : Nat) (p : Nat × OutstandingPut R) : (markSent index p).1 = p.1 := by
  unfold markSent
  split <;> rfl

theorem map_markSent_fst (index : Nat) (l : List (Nat × OutstandingPut R)) :
    (l.map (markSent index)).map Prod.fst = l.map Prod.fst := by
  simp [List.map_map, Function.comp_def]

theorem countP_markSent (index i : Nat) (l : List (Nat × OutstandingPut R)) :
    (l.map (markSent index)).countP (·.1 = i) = l.countP (·.1 = i) := by
  simp [List.countP_map, Function.comp_def]

theorem Accounted.sendAction (h : Accounted s) {callback : RequestCallback} (hc : isListen callback = false) :
    Accounted (sendAction s callback) where
  places := h.places
  unacked := by
    simp only [FPersistentConnection.sendAction, List.countP_cons, hc]
    simpa using h.unacked

theorem Accounted.sendPut (h : Accounted s) (index : Nat) : Accounted (sendPut s index) := by
  have hmarked : Accounted { s with
      outstandingPuts := s.outstandingPuts.map (markSent index), sentPuts := s.sentPuts ++ [index] } := by
    refine ⟨fun i => ?_, h.unacked⟩
    refine Eq.trans ?_ (h.places i)
    simp only [FPersistentConnection.places, countP_markSent]
  exact hmarked.sendAction rfl

theorem Accounted.sendListen (h : Accounted s) (number : Nat) : Accounted (sendListen s number) where
  places := h.places
  unacked := by
    have hcount : ((s.requestNumber, RequestCallback.listen number) :: s.requestCBHash).countP (isListen ·.2) =
        s.requestCBHash.countP (isListen ·.2) + 1 := List.countP_cons_of_pos rfl
    change s.unackedListensCount + 1 = _
    rw [h.unacked]
    exact_mod_cast hcount.symm

theorem Restoring.cons (h : Restoring s) (e : Nat × RequestCallback) :
    ∃ rn, (rn, RequestCallback.auth true) ∈ e :: s.requestCBHash := by
  obtain ⟨rn, hrn⟩ := h
  exact ⟨rn, List.mem_cons_of_mem _ hrn⟩

theorem Inv.sendAction (h : Inv s) {callback : RequestCallback} (hc : isListen callback = false) :
    Inv (sendAction s callback) where
  toAccounted := h.toAccounted.sendAction hc
  restoring hs := (h.restoring hs).cons _
  sent hs := (h.sent hs).imp_right fun hr => hr.cons _

theorem Inv.sendListen (h : Inv s) (number : Nat) : Inv (sendListen s number) where
  toAccounted := h.toAccounted.sendListen number
  restoring hs := (h.restoring hs).cons _
  sent hs := (h.sent hs).imp_right fun hr => hr.cons _

/-- The puts of a list are sent, and nothing else changes. -/
theorem foldl_sendPut (ks : List Nat) (h : Accounted s) :
    Accounted (ks.foldl sendPut s) ∧ (ks.foldl sendPut s).connectionState = s.connectionState ∧
      (ks.foldl sendPut s).outstandingPuts.map Prod.fst = s.outstandingPuts.map Prod.fst ∧
      ∀ k, k ∈ ks ∨ k ∈ s.sentPuts → k ∈ (ks.foldl sendPut s).sentPuts := by
  induction ks generalizing s with
  | nil => exact ⟨h, rfl, rfl, by simp⟩
  | cons k ks ih =>
    obtain ⟨hacc, hstate, hkeys, hsent⟩ := ih (h.sendPut k)
    refine ⟨hacc, hstate, hkeys.trans (map_markSent_fst k _), fun j hj => hsent j ?_⟩
    have hput : (sendPut s k).sentPuts = s.sentPuts ++ [k] := rfl
    rw [hput, List.mem_append, List.mem_singleton]
    rcases hj with hj | hj
    · rcases List.mem_cons.1 hj with hj | hj
      · exact Or.inr (Or.inr hj)
      · exact Or.inl hj
    · exact Or.inr (Or.inl hj)

theorem foldl_sendListen (numbers : List Nat) (h : Accounted s) :
    Accounted (numbers.foldl sendListen s) ∧ (numbers.foldl sendListen s).connectionState = s.connectionState ∧
      (numbers.foldl sendListen s).outstandingPuts = s.outstandingPuts := by
  induction numbers generalizing s with
  | nil => exact ⟨h, rfl, rfl⟩
  | cons number numbers ih => exact ih (h.sendListen number)

/-- **Everything is sent again.** -/
theorem inv_restoreState (h : Accounted s) (hs : s.connectionState = .connected) : Inv (restoreState s) := by
  obtain ⟨hl, hlstate, hlout⟩ := foldl_sendListen s.listens h
  obtain ⟨hp, hpstate, hpkeys, hpsent⟩ := foldl_sendPut (s.outstandingPuts.map Prod.fst) hl
  refine { toAccounted := hp, restoring := fun hauth => ?_, sent := fun _ => Or.inl fun p hmem => hpsent _ (Or.inl ?_) }
  · rw [restoreState, hpstate, hlstate, hs] at hauth
    cases hauth
  · have hkey : p.1 ∈ (restoreState s).outstandingPuts.map Prod.fst := List.mem_map_of_mem hmem
    rwa [restoreState, hpkeys, hlout] at hkey

/-! ## The steps -/

theorem inv_init : Inv (init R) where
  places i := by simp [places, init]
  unacked := rfl
  restoring hs := by cases hs
  sent hs := by cases hs

theorem inv_putInternal (h : Inv s) (request : R) (hash : Bool) : Inv (putInternal s request hash) := by
  have hacc : Accounted { s with
      putCounter := s.putCounter + 1
      outstandingPuts := s.outstandingPuts ++ [(s.putCounter, ⟨request, hash, false⟩)] } := by
    refine ⟨fun i => ?_, h.unacked⟩
    have hold := h.places i
    simp only [places, List.countP_append, List.countP_singleton, decide_eq_true_eq] at hold ⊢
    by_cases hi : s.putCounter = i
    · rw [if_neg (by omega)] at hold
      rw [if_pos hi, if_pos (by omega)]
      omega
    · rw [if_neg hi]
      by_cases hlt : i < s.putCounter
      · rw [if_pos hlt] at hold
        rw [if_pos (by omega)]
        omega
      · rw [if_neg hlt] at hold
        rw [if_neg (by omega)]
        omega
  unfold putInternal
  dsimp only
  split
  · rename_i hcan
    have hs : s.connectionState = .connected := of_decide_eq_true hcan
    refine { toAccounted := hacc.sendPut s.putCounter, restoring := fun hauth => ?_, sent := fun _ => ?_ }
    · change s.connectionState = .authenticating at hauth
      rw [hs] at hauth
      cases hauth
    · refine (h.sent hs).imp (fun hall p hp => ?_) fun hr => hr.cons _
      obtain ⟨p', hp', rfl⟩ := List.mem_map.1 hp
      rw [markSent_fst]
      change p'.1 ∈ s.sentPuts ++ [s.putCounter]
      rcases List.mem_append.1 hp' with hp' | hp'
      · exact List.mem_append_left _ (hall p' hp')
      · rw [List.mem_singleton.1 hp']
        simp
  · rename_i hcan
    refine { toAccounted := hacc, restoring := h.restoring, sent := fun hs => ?_ }
    exact absurd (decide_eq_true hs) hcan

theorem inv_listen (h : Inv s) : Inv (listen s) := by
  have hs : Inv { s with listenCounter := s.listenCounter + 1, listens := s.listens ++ [s.listenCounter] } :=
    ⟨⟨h.places, h.unacked⟩, h.restoring, h.sent⟩
  unfold listen
  dsimp only
  split
  · exact hs.sendListen s.listenCounter
  · exact hs

theorem inv_refreshAuthToken (h : Inv s) (token : Bool) : Inv (refreshAuthToken s token) := by
  have hs : Inv { s with authToken := token } := ⟨⟨h.places, h.unacked⟩, h.restoring, h.sent⟩
  unfold refreshAuthToken
  dsimp only
  split
  · split
    · exact hs.sendAction rfl
    · exact ⟨⟨h.places, h.unacked⟩, h.restoring, h.sent⟩
  · exact hs

theorem places_ackPuts (s : Connection R) (i : Nat) : places (ackPuts s) i = places s i := by
  simp only [places, ackPuts, List.countP_append, List.countP_nil]
  omega

theorem inv_purgeOutstandingWrites (h : Inv s) : Inv (purgeOutstandingWrites s) := by
  refine ⟨⟨fun i => ?_, h.unacked⟩, h.restoring, fun _ => Or.inl fun p hp => absurd hp List.not_mem_nil⟩
  refine Eq.trans ?_ (h.places i)
  simp only [places, purgeOutstandingWrites, ackPuts, List.countP_append, List.countP_nil, List.countP_map,
    Function.comp_def]
  omega

theorem inv_onDisconnect (h : Accounted s) : Inv (onDisconnect s) := by
  refine ⟨⟨fun i => ?_, rfl⟩, fun hs => (by cases hs), fun hs => (by cases hs)⟩
  refine Eq.trans ?_ (h.places i)
  have hsplit := List.countP_eq_countP_filter_add s.outstandingPuts (fun p => decide (p.1 = i)) isSentTransaction
  simp only [places, onDisconnect, cancelSentTransactions, List.countP_append, List.countP_map, Function.comp_def]
  omega

/-- A write that is outstanding is taken from its only place. -/
theorem countP_answeredPut (h : Accounted s) {index : Nat} (hmem : index ∈ s.outstandingPuts.map Prod.fst) (i : Nat) :
    (s.outstandingPuts.filter fun p => p.1 ≠ index).countP (·.1 = i) + (if index = i then 1 else 0) =
      s.outstandingPuts.countP (·.1 = i) := by
  have hone : 0 < s.outstandingPuts.countP (·.1 = index) := by
    rw [List.countP_pos_iff]
    obtain ⟨p, hp, hpi⟩ := List.mem_map.1 hmem
    exact ⟨p, hp, by simpa using hpi⟩
  rw [List.countP_filter]
  by_cases hi : index = i
  · subst hi
    have hle := h.places index
    have hzero : s.outstandingPuts.countP (fun p => decide (p.1 = index) && decide (p.1 ≠ index)) = 0 := by
      rw [List.countP_eq_zero]
      simp
    simp only [places] at hle
    rw [hzero, if_pos rfl]
    split at hle <;> omega
  · rw [if_neg hi, Nat.add_zero]
    refine List.countP_congr fun p _ => ?_
    simp only [Bool.and_eq_true, decide_eq_true_eq]
    constructor
    · exact And.left
    · rintro rfl
      exact ⟨rfl, Ne.symm hi⟩

theorem inv_putAnswered (h : Inv s) (index : Nat) (status : String) : Inv (putAnswered s index status) := by
  unfold putAnswered
  split
  · rename_i hmem
    rw [List.contains_iff_mem] at hmem
    have hcount := countP_answeredPut h.toAccounted hmem
    have hsent : s.connectionState = .connected →
        (∀ p ∈ s.outstandingPuts.filter fun p => p.1 ≠ index, p.1 ∈ s.sentPuts) ∨ Restoring s := by
      intro hs
      exact (h.sent hs).imp_left fun hall p hp => hall p (List.mem_filter.1 hp).1
    split
    · refine ⟨⟨fun i => ?_, h.unacked⟩, h.restoring, hsent⟩
      refine Eq.trans ?_ (h.places i)
      have := hcount i
      simp only [places, List.countP_append, List.countP_singleton, decide_eq_true_eq]
      omega
    · refine ⟨⟨fun i => ?_, h.unacked⟩, h.restoring, hsent⟩
      refine Eq.trans ?_ (h.places i)
      have := hcount i
      simp only [places, List.countP_append, List.countP_singleton, decide_eq_true_eq]
      omega
  · exact h

/-- After an answer its block does not wait any more. -/
theorem countP_answered {rn : Nat} {callback : RequestCallback} (hmem : (rn, callback) ∈ s.requestCBHash) :
    (s.requestCBHash.erase (rn, callback)).countP (isListen ·.2) + (if isListen callback then 1 else 0) =
      s.requestCBHash.countP (isListen ·.2) := by
  rw [(List.perm_cons_erase hmem).countP_eq, List.countP_cons]

theorem restoring_answered (h : Restoring s) {rn : Nat} {callback : RequestCallback} (hc : callback ≠ .auth true) :
    Restoring { s with requestCBHash := s.requestCBHash.erase (rn, callback) } := by
  obtain ⟨rn', hrn⟩ := h
  refine ⟨rn', (List.mem_erase_of_ne fun heq => ?_).2 hrn⟩
  cases heq
  exact hc rfl

/-- The connection without the block that was answered, when it is not one of a listen. -/
theorem accounted_answered (h : Accounted s) {rn : Nat} {callback : RequestCallback}
    (hmem : (rn, callback) ∈ s.requestCBHash) (hc : isListen callback = false) :
    Accounted { s with requestCBHash := s.requestCBHash.erase (rn, callback) } := by
  have hcount := countP_answered hmem
  rw [hc, if_neg Bool.false_ne_true, Nat.add_zero] at hcount
  exact ⟨h.places, by rw [h.unacked, hcount]⟩

theorem inv_answered (h : Inv s) {rn : Nat} {callback : RequestCallback} (hmem : (rn, callback) ∈ s.requestCBHash)
    (hc : isListen callback = false) (hr : callback ≠ .auth true) :
    Inv { s with requestCBHash := s.requestCBHash.erase (rn, callback) } where
  toAccounted := accounted_answered h.toAccounted hmem hc
  restoring hs := restoring_answered (h.restoring hs) hr
  sent hs := (h.sent hs).imp_right fun hrestoring => restoring_answered hrestoring hr

theorem inv_listenAnswered (h : Inv s) {rn number : Nat} (hmem : (rn, RequestCallback.listen number) ∈ s.requestCBHash)
    (status : String) :
    Inv (listenAnswered { s with requestCBHash := s.requestCBHash.erase (rn, .listen number) } number status) := by
  have hcount := countP_answered hmem
  have hunacked : s.unackedListensCount - 1 =
      (s.requestCBHash.erase (rn, RequestCallback.listen number)).countP (isListen ·.2) := by
    rw [isListen, if_pos rfl] at hcount
    rw [h.unacked, ← hcount]
    omega
  have hrestoring : Restoring s →
      Restoring { s with requestCBHash := s.requestCBHash.erase (rn, .listen number) } :=
    fun hr => restoring_answered hr (by simp)
  unfold listenAnswered
  dsimp only
  split
  · refine ⟨⟨fun i => ?_, hunacked⟩, fun hs => hrestoring (h.restoring hs), fun hs => (h.sent hs).imp_right hrestoring⟩
    rw [places_ackPuts]
    exact h.places i
  · exact ⟨⟨h.places, hunacked⟩, fun hs => hrestoring (h.restoring hs), fun hs => (h.sent hs).imp_right hrestoring⟩

theorem inv_authAnswered (h : Inv s) (hs : connected s = true) {rn : Nat} {restoreStateAfterComplete : Bool}
    (hmem : (rn, RequestCallback.auth restoreStateAfterComplete) ∈ s.requestCBHash) (status : String) :
    Inv (authAnswered { s with requestCBHash := s.requestCBHash.erase (rn, .auth restoreStateAfterComplete) }
      restoreStateAfterComplete status) := by
  have hacc := accounted_answered h.toAccounted hmem rfl
  unfold authAnswered
  dsimp only
  split
  · cases restoreStateAfterComplete with
    | true => exact inv_restoreState ⟨hacc.places, hacc.unacked⟩ rfl
    | false =>
      refine ⟨⟨hacc.places, hacc.unacked⟩, fun hauth => (by cases hauth), fun _ => ?_⟩
      -- the answer to a new token does not send anything, also when it comes first
      rw [connected, Bool.or_eq_true, decide_eq_true_eq, decide_eq_true_eq] at hs
      rcases hs with hs | hs
      · exact Or.inr (restoring_answered (h.restoring hs) (by simp))
      · exact (h.sent hs).imp_right fun hr => restoring_answered hr (by simp)
  · exact inv_onDisconnect ⟨hacc.places, hacc.unacked⟩

theorem inv_onDataMessage (h : Inv s) (hs : connected s = true) (rn : Nat) (status : String) :
    Inv (onDataMessage s rn status) := by
  unfold onDataMessage
  cases hl : s.requestCBHash.lookup rn with
  | none => exact h
  | some callback =>
    obtain ⟨_, _, heq, -⟩ := List.lookup_eq_some_iff.1 hl
    have hmem : (rn, callback) ∈ s.requestCBHash := by rw [heq]; simp
    cases callback with
    | put index =>
      have hanswered := inv_answered h hmem rfl (by simp)
      exact inv_putAnswered hanswered index status
    | listen number => exact inv_listenAnswered h hmem status
    | stats => exact inv_answered h hmem rfl (by simp)
    | auth restoreStateAfterComplete => exact inv_authAnswered h hs hmem status

theorem inv_restoreAuth (h : Accounted s) : Inv (restoreAuth s) := by
  unfold restoreAuth
  split
  · have hacc : Accounted { s with connectionState := .authenticating } := ⟨h.places, h.unacked⟩
    refine ⟨hacc.sendAction rfl, fun _ => ⟨s.requestNumber, ?_⟩, fun hs => (by cases hs)⟩
    exact List.mem_cons_self
  · exact inv_restoreState ⟨h.places, h.unacked⟩ rfl

theorem inv_onReady (h : Accounted s) : Inv (onReady s) := by
  have hstats : Accounted (if s.firstConnection then sendConnectStats s else s) := by
    split
    · exact h.sendAction rfl
    · exact h
  have hauth := inv_restoreAuth hstats
  exact ⟨⟨hauth.places, hauth.unacked⟩, hauth.restoring, hauth.sent⟩

theorem inv_interrupt (h : Inv s) : Inv (interrupt s) := by
  unfold interrupt
  split
  · exact inv_onDisconnect h.toAccounted
  · exact ⟨⟨h.places, h.unacked⟩, fun hs => (by cases hs), fun hs => (by cases hs)⟩

theorem inv_step {s' : Connection R} (h : Inv s) {e : Event R} (hstep : step s e = some s') : Inv s' := by
  cases e with
  | put request hash =>
    cases hstep
    exact inv_putInternal h request hash
  | listen =>
    cases hstep
    exact inv_listen h
  | unlisten number =>
    cases hstep
    exact ⟨⟨h.places, h.unacked⟩, h.restoring, h.sent⟩
  | refreshAuthToken token =>
    cases hstep
    exact inv_refreshAuthToken h token
  | purgeOutstandingWrites =>
    cases hstep
    exact inv_purgeOutstandingWrites h
  | interrupt =>
    cases hstep
    exact inv_interrupt h
  | retry =>
    simp only [step, Option.ite_none_right_eq_some] at hstep
    obtain ⟨-, hstep⟩ := hstep
    cases hstep
    exact ⟨⟨h.places, h.unacked⟩, fun hs => (by cases hs), fun hs => (by cases hs)⟩
  | fetchedToken token =>
    simp only [step, Option.ite_none_right_eq_some] at hstep
    obtain ⟨-, hstep⟩ := hstep
    cases token with
    | none =>
      cases hstep
      exact ⟨⟨h.places, h.unacked⟩, fun hs => (by cases hs), fun hs => (by cases hs)⟩
    | some token =>
      cases hstep
      exact ⟨⟨h.places, h.unacked⟩, fun hs => (by cases hs), fun hs => (by cases hs)⟩
  | onReady =>
    simp only [step, Option.ite_none_right_eq_some] at hstep
    obtain ⟨-, hstep⟩ := hstep
    cases hstep
    exact inv_onReady h.toAccounted
  | onDataMessage rn status =>
    simp only [step, Option.ite_none_right_eq_some] at hstep
    obtain ⟨hs, hstep⟩ := hstep
    cases hstep
    exact inv_onDataMessage h hs rn status
  | onAuthRevoked =>
    simp only [step, Option.ite_none_right_eq_some] at hstep
    obtain ⟨-, hstep⟩ := hstep
    cases hstep
    exact inv_onDisconnect ⟨h.places, h.unacked⟩
  | onListenRevoked path =>
    simp only [step, Option.ite_none_right_eq_some] at hstep
    obtain ⟨-, hstep⟩ := hstep
    cases hstep
    exact ⟨⟨h.places, h.unacked⟩, h.restoring, h.sent⟩
  | onDisconnect =>
    simp only [step, Option.ite_none_right_eq_some] at hstep
    obtain ⟨-, hstep⟩ := hstep
    cases hstep
    exact inv_onDisconnect h.toAccounted

/-- **No write is lost and no block is called twice.** Whatever is lost, answered or answered late, each write is
outstanding, held back or told to its caller, and this once; the assertion on `unackedListensCount` holds; and on a
connection that takes writes every outstanding one has been sent, or an answer is expected after which it is. -/
theorem run_accounted {es : List (Event R)} (h : run step (init R) es = some s) :
    (∀ i, s.outstandingPuts.countP (·.1 = i) + s.putsToAck.countP (·.1 = i) + s.completed.countP (·.1 = i) =
      if i < s.putCounter then 1 else 0) ∧
    0 ≤ s.unackedListensCount ∧
    (s.connectionState = .connected → (∀ p ∈ s.outstandingPuts, p.1 ∈ s.sentPuts) ∨
      ∃ rn, (rn, RequestCallback.auth true) ∈ s.requestCBHash) := by
  have hinv : Inv s := run_inv (fun _ _ _ hi hs => inv_step hi hs) h inv_init
  refine ⟨hinv.places, ?_, hinv.sent⟩
  rw [hinv.unacked]
  omega

/-- A write is sent, the connection is lost before the answer, and the write is sent again and answered. -/
def lostAnswer : List (Event Nat) :=
  [.retry, .fetchedToken (some false), .onReady, .put 7 false, .onDisconnect, .retry, .fetchedToken (some false),
    .onReady, .onDataMessage 2 "ok"]

theorem run_accounted_lostAnswer : ∃ s, run step (init Nat) lostAnswer = some s ∧ s.completed = [(0, "ok")] ∧
    ∀ i, s.outstandingPuts.countP (·.1 = i) + s.putsToAck.countP (·.1 = i) + s.completed.countP (·.1 = i) =
      if i < s.putCounter then 1 else 0 :=
  ⟨_, rfl, rfl, (@run_accounted _ _ lostAnswer rfl).1⟩

end FPersistentConnection

end ChatApp
