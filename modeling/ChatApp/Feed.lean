import ChatApp.Lib.Replica
import ChatApp.Records

/-!
# The messages on every device

Any number of clients run `observeMessages` and `handleSendMessage` on the same list `chats`. What Firebase does with
it is `Lib.Replica`: a client is a peer, a message is a pending write until the server answers. The app handles only
`childAdded`, and `handleSendMessage` takes no completion handler.

- `Feed.step`: an event of the network, and `observeMessages` for every child that it reports; every run is one of the
  network (`simulates`), and the list of a client is what was reported to it (`chats_eq`);
- `lists_agree_iff`: at rest, the lists agree with the server iff no message of a client was rejected under its eyes;
- `lists_in_key_order`: two clients to whom everything was reported in the order of the keys show the same list.
-/

namespace ChatApp

open Lib Lib.Runs Lib.Replica

structure Feed (C K : Type) where
  net : Net C K Node
  /-- `HomeViewController.chats` of each client. -/
  chats : C → List Chat

/-- What can happen; `load` is the first answer to `observeMessages`. -/
inductive FeedEvent (C K : Type)
  | load (client : C)
  | handleSendMessage (client : C) (key : K) (text : String) (sender : Option Uid) (user : Option User)
      (timestamp : String)
  | accepted (client : C) (n : Nat)
  | rejected (client : C) (n : Nat)
  | delivered (client : C) (n : Nat)

variable {C K : Type}

/-- The event of the network; a send that raises has none. -/
def FeedEvent.netEvent : FeedEvent C K → Option (Event C K Node)
  | load c => some (.load c)
  | handleSendMessage c key text sender user timestamp =>
    match ChatLogViewController.handleSendMessage text sender user timestamp with
    | .ok values => some (.write c key (Ref.recordNode values))
    | .error _ => none
  | accepted c n => some (.accept c n)
  | rejected c n => some (.reject c n)
  | delivered c n => some (.deliver c n)

/-- What is written is a message. -/
theorem FeedEvent.netEvent_write {e : FeedEvent C K} {c : C} {k : K} {a : Node} (h : e.netEvent = some (.write c k a)) :
    ∃ text sender receiver timestamp, a = ChatLogViewController.chatNode text sender receiver timestamp := by
  cases e with
  | handleSendMessage c' key text sender user timestamp =>
    simp only [netEvent] at h
    split at h
    · rename_i values hv
      obtain ⟨u, -, rfl⟩ := ChatLogViewController.handleSendMessage_ok hv
      cases h
      exact ⟨text, sender, u.id, timestamp, ChatLogViewController.recordNode_values ..⟩
    · cases h
  | _ => cases h

theorem FeedEvent.netEvent_reject {e : FeedEvent C K} {c : C} {n : Nat} (h : e.netEvent = some (.reject c n)) :
    e = .rejected c n := by
  cases e with
  | handleSendMessage =>
    simp only [netEvent] at h
    split at h <;> cases h
  | rejected => cases h; rfl
  | _ => cases h

/-- The decoded children whose values are dictionaries. -/
def decoded (children : List (K × Node)) : List Chat := children.filterMap fun x => HomeViewController.chat? x.2

namespace Feed

def initial (C : Type) (server : List (K × Node)) : Feed C K := ⟨Net.initial C server, fun _ => []⟩

variable [DecidableEq C] [LinearOrder K]

def step (s : Feed C K) (e : FeedEvent C K) : Option (Feed C K) := do
  let event ← e.netEvent
  let net ← s.net.step event
  return ⟨net, fun c =>
    (s.net.reports c event).foldl (fun chats x => HomeViewController.observeMessages chats x.2) (s.chats c)⟩

variable {s s' : Feed C K} {e : FeedEvent C K} {server : List (K × Node)} {es : List (FeedEvent C K)}

/-! ## The network below -/

theorem step_eq_some (h : s.step e = some s') : ∃ event, e.netEvent = some event ∧ s.net.step event = some s'.net ∧
    ∀ c, s'.chats c = s.chats c ++ decoded (s.net.reports c event) := by
  have hfold : ∀ (l : List (K × Node)) (chats : List Chat),
      l.foldl (fun chats x => HomeViewController.observeMessages chats x.2) chats = chats ++ decoded l := by
    intro l chats
    have h := HomeViewController.foldl_observeMessages (l.map Prod.snd) chats
    rwa [List.foldl_map, List.filterMap_map] at h
  simp only [step, Option.bind_eq_bind, Option.bind_eq_some_iff, Option.pure_def, Option.some.injEq] at h
  obtain ⟨event, he, net, hn, rfl⟩ := h
  exact ⟨event, he, hn, fun c => hfold _ _⟩

/-- Every run of the clients is a run of the network. -/
theorem simulates : Simulates (step (C := C) (K := K)) Net.step Feed.net FeedEvent.netEvent := by
  intro s e s' h
  obtain ⟨event, he, hn, -⟩ := step_eq_some h
  exact ⟨event, he, hn⟩

theorem run_net (h : run step (initial C server) es = some s) :
    run Net.step (Net.initial C server) (es.filterMap FeedEvent.netEvent) = some s.net :=
  run_sim simulates h

/-- The list of a client is what was reported to it. -/
theorem chats_eq (h : run step (initial C server) es = some s) (c : C) :
    s.chats c = decoded (s.net.peer c).reported := by
  refine run_inv (I := fun s => ∀ c, s.chats c = decoded (s.net.peer c).reported)
    (fun s e s' hi hs c => ?_) h (fun _ => rfl) c
  obtain ⟨event, -, hn, hc⟩ := step_eq_some hs
  rw [hc, hi, Net.reported_step hn]
  exact List.filterMap_append.symm

/-- A message that is pending or was taken back is a dictionary. -/
def Messages (s : Feed C K) : Prop :=
  ∀ c, ∀ x ∈ (s.net.peer c).pending ++ (s.net.peer c).removed, HomeViewController.chat? x.2 ≠ none

theorem messages_step (hi : Messages s) (h : s.step e = some s') : Messages s' := by
  intro c x hx
  obtain ⟨event, he, hn, -⟩ := step_eq_some h
  have heff := Net.effect_of_step hn c
  have hold : x ∈ (s.net.peer c).pending ∨ x ∈ (s.net.peer c).removed → HomeViewController.chat? x.2 ≠ none :=
    fun hx => hi c x (List.mem_append.2 hx)
  rcases List.mem_append.1 hx with hx | hx
  · rcases Net.effect_pending heff hx with hx | ⟨rfl, -⟩
    · exact hold (Or.inl hx)
    · obtain ⟨text, sender, receiver, timestamp, ha⟩ := FeedEvent.netEvent_write he
      rw [ha, HomeViewController.chat_chatNode]
      exact Option.some_ne_none _
  · exact hold (Net.effect_removed heff hx).symm

/-! ## Agreement -/

/-- A message is rejected only while its writer has not loaded the list. -/
def RejectedUnseen (s : Feed C K) (e : FeedEvent C K) : Prop :=
  ∀ c n, e = .rejected c n → (s.net.peer c).loaded = false

omit [LinearOrder K] in
/-- The messages of a list with an echo of a rejected one are too many. -/
theorem perm_decoded_iff {l children removed : List (K × Node)} (hl : l.Perm (children ++ removed))
    (hr : ∀ x ∈ removed, HomeViewController.chat? x.2 ≠ none) : (decoded l).Perm (decoded children) ↔ removed = [] := by
  have hd : (decoded l).Perm (decoded children ++ decoded removed) := by
    rw [decoded, decoded, decoded, ← List.filterMap_append]
    exact hl.filterMap _
  constructor
  · intro h
    have hlen := (h.symm.trans hd).length_eq
    rw [List.length_append] at hlen
    cases removed with
    | nil => rfl
    | cons x removed =>
      obtain ⟨chat, hc⟩ := Option.ne_none_iff_exists'.1 (hr x List.mem_cons_self)
      have : (decoded (x :: removed)).length = (decoded removed).length + 1 := by simp [decoded, hc]
      omega
  · rintro rfl
    simpa [decoded] using hd

/-- Nothing was taken back iff no message was rejected after its echo. -/
theorem run_removed_iff (h : run step (initial C server) es = some s) : (∀ c, (s.net.peer c).removed = []) ↔
    Along step RejectedUnseen (initial C server) es := by
  have heq : (fun (s : Feed C K) e => ∀ event, e.netEvent = some event → ∀ c n, event = .reject c n →
      (s.net.peer c).loaded = false) = RejectedUnseen := by
    funext s e
    refine propext ⟨fun h c n he => h (.reject c n) (by rw [he]; rfl) c n rfl, fun h event he c n hr => ?_⟩
    exact h c n (FeedEvent.netEvent_reject (hr ▸ he))
  rw [Net.run_removed_iff (run_net h), ← heq]
  exact along_sim simulates h

/-- **Agreement.** With no write unresolved and no event undelivered, the list of every client that has loaded it holds
the messages of the server, each as often as there, iff no message was rejected while its writer had the list loaded. -/
theorem lists_agree_iff (h : run step (initial C server) es = some s) (hq : s.net.Quiet) :
    (∀ c, (s.net.peer c).loaded = true → (s.chats c).Perm (decoded s.net.server)) ↔
      Along step RejectedUnseen (initial C server) es := by
  have hmessages : Messages s := run_inv (fun _ _ _ hi hs => messages_step hi hs) h (fun c x hx => (nomatch hx))
  rw [← run_removed_iff h]
  refine forall_congr' fun c => ?_
  have hcons := Net.run_conserved (run_net h) c
  cases hl : (s.net.peer c).loaded with
  | false => simp [(hcons.unloaded hl).2.2]
  | true =>
    rw [chats_eq h, perm_decoded_iff (Net.reported_perm hcons hq hl) fun x hx =>
      hmessages c x (List.mem_append_right _ hx)]
    simp

/-- A message of one client that is accepted and reaches the other. -/
theorem lists_agree_accepted : ∃ s, run step (initial Bool ([] : List (Nat × Node))) [.load true, .load false,
      .handleSendMessage true 1 "hi" none (some ⟨"bob", "", "", "", none⟩) "1571000000.5", .accepted true 0,
      .delivered false 0] = some s ∧
    ∀ c, (s.net.peer c).loaded = true → (s.chats c).Perm (decoded s.net.server) := by
  have hrun : ∃ s, run step (initial Bool ([] : List (Nat × Node))) [.load true, .load false,
      .handleSendMessage true 1 "hi" none (some ⟨"bob", "", "", "", none⟩) "1571000000.5", .accepted true 0,
      .delivered false 0] = some s ∧ s.net.Quiet ∧ ∀ c, (s.net.peer c).removed = [] := by
    refine ⟨_, rfl, fun c => ?_, fun c => ?_⟩
    · cases c <;> exact ⟨rfl, rfl⟩
    · cases c <;> rfl
  obtain ⟨s, hs, hq, hr⟩ := hrun
  exact ⟨s, hs, (lists_agree_iff hs hq).2 ((run_removed_iff hs).1 hr)⟩

/-- A rejected message stays on the list of its writer. -/
theorem lists_rejected_stays : ∃ s, run step (initial Bool ([] : List (Nat × Node))) [.load true,
      .handleSendMessage true 1 "hi" none (some ⟨"bob", "", "", "", none⟩) "1571000000.5", .rejected true 0] = some s ∧
    s.net.Quiet ∧ (s.net.peer true).loaded = true ∧ s.chats true = [⟨"hi", "", "bob", "1571000000.5"⟩] ∧
    s.net.server = [] ∧ ¬(s.chats true).Perm (decoded s.net.server) := by
  have hrun : ∃ s, run step (initial Bool ([] : List (Nat × Node))) [.load true,
      .handleSendMessage true 1 "hi" none (some ⟨"bob", "", "", "", none⟩) "1571000000.5", .rejected true 0] = some s ∧
      s.net.Quiet ∧ (s.net.peer true).loaded = true ∧ s.chats true = [⟨"hi", "", "bob", "1571000000.5"⟩] ∧
      s.net.server = [] := by
    refine ⟨_, rfl, fun c => ?_, rfl, by decide, rfl⟩
    cases c <;> exact ⟨rfl, rfl⟩
  obtain ⟨s, hs, hq, hl, hc, hserver⟩ := hrun
  refine ⟨s, hs, hq, hl, hc, hserver, fun h => ?_⟩
  rw [hc, hserver] at h
  exact absurd h.length_eq (by decide)

/-! ## Order -/

/-- Whatever is reported to the client after its list was loaded has a key above all keys reported before. -/
def InKeyOrder (c : C) (s : Feed C K) (e : FeedEvent C K) : Prop :=
  ∀ event, e.netEvent = some event → Net.InOrder c s.net event

/-- The reports to a client are in the order of the keys iff each of them was. -/
theorem run_order_iff {c : C} (h : run step (initial C server) es = some s) :
    ((s.net.peer c).reported.Pairwise fun x y => x.1 ≤ y.1) ↔ Along step (InKeyOrder c) (initial C server) es :=
  (Net.run_pairwise_iff (run_net h)).trans (along_sim simulates h)

/-- **The same order everywhere.** When no message is rejected and nothing is unresolved or undelivered, two clients to
whom everything was reported in the order of the keys show the messages of the server in this order. -/
theorem lists_in_key_order {c₁ c₂ : C} (hserver : (server.map Prod.fst).Nodup)
    (h : run step (initial C server) es = some s) (hrej : ∀ c n, .rejected c n ∉ es) (hq : s.net.Quiet)
    (hl₁ : (s.net.peer c₁).loaded = true) (hl₂ : (s.net.peer c₂).loaded = true)
    (ho₁ : Along step (InKeyOrder c₁) (initial C server) es) (ho₂ : Along step (InKeyOrder c₂) (initial C server) es) :
    s.chats c₁ = s.chats c₂ ∧ s.chats c₁ = decoded (Net.sorted s.net.server) := by
  have hremoved : ∀ c, (s.net.peer c).removed = [] := by
    refine (run_removed_iff h).2 (along_of_inv (I := fun _ => True) (P := RejectedUnseen)
      (Q := fun e => ∀ c n, e ≠ .rejected c n) (fun _ e _ _ hq _ => ⟨trivial, fun c n he => absurd he (hq c n)⟩) h ?_
      trivial)
    rintro e he c n rfl
    exact hrej c n he
  have hlist : ∀ c, (s.net.peer c).loaded = true → Along step (InKeyOrder c) (initial C server) es →
      s.chats c = decoded (Net.sorted s.net.server) := by
    intro c hl ho
    rw [chats_eq h, Net.reported_eq_sorted (Net.run_conserved (run_net h) c) (Net.run_keysInv hserver (run_net h)) hq hl
      (hremoved c) ((run_order_iff h).2 ho)]
  exact ⟨(hlist c₁ hl₁ ho₁).trans (hlist c₂ hl₂ ho₂).symm, hlist c₁ hl₁ ho₁⟩

/-- A message with a key, sent to `bob`. -/
def sendToBob (client : Bool) (key : Nat) (text : String) : FeedEvent Bool Nat :=
  .handleSendMessage client key text none (some ⟨"bob", "", "", "", none⟩) "1571000000.5"

/-- Two messages, the second one sent after the first had arrived. -/
theorem lists_in_key_order_turns : ∃ s, run step (initial Bool []) [.load true, .load false, sendToBob true 1 "one",
      .accepted true 0, .delivered false 0, sendToBob false 2 "two", .accepted false 0, .delivered true 0] = some s ∧
    s.net.server.length = 2 ∧ s.chats true = s.chats false := by
  have hrun : ∃ s, run step (initial Bool []) [.load true, .load false, sendToBob true 1 "one", .accepted true 0,
      .delivered false 0, sendToBob false 2 "two", .accepted false 0, .delivered true 0] = some s ∧ s.net.Quiet ∧
      s.net.server.length = 2 ∧
      ∀ c, (s.net.peer c).loaded = true ∧ (s.net.peer c).reported.map Prod.fst = [1, 2] := by
    refine ⟨_, rfl, fun c => ?_, rfl, fun c => ?_⟩
    · cases c <;> exact ⟨rfl, rfl⟩
    · cases c <;> exact ⟨rfl, rfl⟩
  obtain ⟨s, hs, hq, hlen, hc⟩ := hrun
  have ho : ∀ c, (s.net.peer c).reported.Pairwise fun x y => x.1 ≤ y.1 := fun c =>
    List.pairwise_map.1 (by rw [(hc c).2]; decide)
  exact ⟨s, hs, hlen, (lists_in_key_order (by simp) hs (by simp [sendToBob]) hq (hc true).1 (hc false).1
    ((run_order_iff hs).1 (ho true)) ((run_order_iff hs).1 (ho false))).1⟩

/-- Two messages sent at the same time: each client shows its own one first. -/
theorem lists_cross : ∃ s, run step (initial Bool []) [.load true, .load false, sendToBob true 2 "two",
      sendToBob false 1 "one", .accepted true 0, .accepted false 0, .delivered true 0, .delivered false 0] = some s ∧
    s.net.Quiet ∧ s.chats true = [⟨"two", "", "bob", "1571000000.5"⟩, ⟨"one", "", "bob", "1571000000.5"⟩] ∧
    s.chats false = [⟨"one", "", "bob", "1571000000.5"⟩, ⟨"two", "", "bob", "1571000000.5"⟩] ∧
    s.chats true ≠ s.chats false := by
  have hrun : ∃ s, run step (initial Bool []) [.load true, .load false, sendToBob true 2 "two",
      sendToBob false 1 "one", .accepted true 0, .accepted false 0, .delivered true 0, .delivered false 0] = some s ∧
      s.net.Quiet ∧ s.chats true = [⟨"two", "", "bob", "1571000000.5"⟩, ⟨"one", "", "bob", "1571000000.5"⟩] ∧
      s.chats false = [⟨"one", "", "bob", "1571000000.5"⟩, ⟨"two", "", "bob", "1571000000.5"⟩] := by
    refine ⟨_, rfl, fun c => ?_, by decide, by decide⟩
    cases c <;> exact ⟨rfl, rfl⟩
  obtain ⟨s, hs, hq, ht, hf⟩ := hrun
  refine ⟨s, hs, hq, ht, hf, ?_⟩
  rw [ht, hf]
  decide

end Feed

end ChatApp
