import ChatApp.Lib.Runs
import Mathlib.Algebra.Order.Group.Multiset
import Mathlib.Data.List.Sort
import Mathlib.Tactic.Abel

/-!
# A list of children on a server, and the peers that watch it

A server holds children under keys. A peer whose view is loaded has its own writes reported at once, and the writes of
others after the server has accepted them; when its view loads, it is told all children at once, in the order of their
keys. A write that the server rejects is taken back from the view of its writer. Keys are never used twice.

- `Net.step`: one event; `Net.reports` is what an event reports to a peer (`reported_step`);
- `Conserved`: what was reported to a peer or is on its way, is on the server, or pending, or was taken back; every
  step keeps it (`effect_conserved`, `run_conserved`);
- `reported_perm`: at rest, a peer was told the children of the server and what was taken back from it;
- `KeysInv`: no two children and no two pending writes have the same key;
- `reported_eq_sorted`: at rest, what was reported in the order of the keys is the sorted list of the server's children.
-/

namespace Lib.Replica

open Lib.Runs

structure Peer (κ α : Type) where
  /-- The view is loaded. -/
  loaded : Bool
  /-- The writes of the peer that are not answered. -/
  pending : List (κ × α)
  /-- The children that were added by others and are not reported yet. -/
  inbox : List (κ × α)
  /-- The children that were reported as added. -/
  reported : List (κ × α)
  /-- The children that were reported as removed. -/
  removed : List (κ × α)

structure Net (ι κ α : Type) where
  server : List (κ × α)
  used : List κ
  peer : ι → Peer κ α

inductive Event (ι κ α : Type)
  | load (i : ι)
  | write (i : ι) (k : κ) (a : α)
  /-- The server accepts the `n`-th pending write of a peer. -/
  | accept (i : ι) (n : Nat)
  | reject (i : ι) (n : Nat)
  /-- The `n`-th child in the inbox of a peer is reported. -/
  | deliver (i : ι) (n : Nat)

/-- The peer that an event belongs to. -/
def Event.peer {ι κ α : Type} : Event ι κ α → ι
  | load i | write i _ _ | accept i _ | reject i _ | deliver i _ => i

namespace Net

variable {ι κ α : Type}

/-- The children `server`, and peers that have not started. -/
def initial (ι : Type) (server : List (κ × α)) : Net ι κ α :=
  ⟨server, server.map Prod.fst, fun _ => ⟨false, [], [], [], []⟩⟩

variable [LinearOrder κ]

/-- In the order of the keys. -/
def sorted (children : List (κ × α)) : List (κ × α) := children.insertionSort fun x y => x.1 ≤ y.1

section Steps

variable [DecidableEq ι]

/-- The children that an event reports as added to the peer `i`. -/
def reports (s : Net ι κ α) (i : ι) : Event ι κ α → List (κ × α)
  | .load j => if i = j then sorted (s.server ++ (s.peer j).pending) else []
  | .write j k a => if i = j ∧ (s.peer j).loaded = true then [(k, a)] else []
  | .deliver j n => if i = j then (s.peer j).inbox[n]?.toList else []
  | .accept _ _ | .reject _ _ => []

/-- Replace one peer. -/
def setPeer (s : Net ι κ α) (i : ι) (p : Peer κ α) : Net ι κ α := { s with peer := Function.update s.peer i p }

def step (s : Net ι κ α) : Event ι κ α → Option (Net ι κ α)
  | .load i =>
    let p := s.peer i
    if p.loaded then none
    else some (s.setPeer i { p with loaded := true, reported := p.reported ++ sorted (s.server ++ p.pending) })
  | .write i k a =>
    let p := s.peer i
    if k ∈ s.used then none
    else some { s.setPeer i { p with
        pending := p.pending ++ [(k, a)]
        reported := if p.loaded then p.reported ++ [(k, a)] else p.reported } with used := k :: s.used }
  | .accept i n =>
    match (s.peer i).pending[n]? with
    | some x => some { s with
        server := s.server ++ [x]
        peer := fun j =>
          let p := s.peer j
          if j = i then { p with pending := p.pending.eraseIdx n }
          else if p.loaded then { p with inbox := p.inbox ++ [x] } else p }
    | none => none
  | .reject i n =>
    let p := s.peer i
    match p.pending[n]? with
    | some x => some (s.setPeer i { p with
        pending := p.pending.eraseIdx n
        removed := if p.loaded then p.removed ++ [x] else p.removed })
    | none => none
  | .deliver i n =>
    let p := s.peer i
    match p.inbox[n]? with
    | some x => some (s.setPeer i { p with inbox := p.inbox.eraseIdx n, reported := p.reported ++ [x] })
    | none => none

end Steps

/-- What an event does to the server and to the peer `i`. -/
inductive Effect (s : Net ι κ α) (i : ι) : Event ι κ α → List (κ × α) → Peer κ α → Prop
  | load (hl : (s.peer i).loaded = false) : Effect s i (.load i) s.server { s.peer i with
      loaded := true
      reported := (s.peer i).reported ++ sorted (s.server ++ (s.peer i).pending) }
  | write {k : κ} {a : α} (hk : k ∉ s.used) : Effect s i (.write i k a) s.server { s.peer i with
      pending := (s.peer i).pending ++ [(k, a)]
      reported := if (s.peer i).loaded then (s.peer i).reported ++ [(k, a)] else (s.peer i).reported }
  | accept {n : Nat} {x : κ × α} (hx : (s.peer i).pending[n]? = some x) :
      Effect s i (.accept i n) (s.server ++ [x]) { s.peer i with pending := (s.peer i).pending.eraseIdx n }
  | acceptOther {j : ι} {n : Nat} {x : κ × α} (hj : i ≠ j) (hx : (s.peer j).pending[n]? = some x)
      (hl : (s.peer i).loaded = true) :
      Effect s i (.accept j n) (s.server ++ [x]) { s.peer i with inbox := (s.peer i).inbox ++ [x] }
  | acceptUnseen {j : ι} {n : Nat} {x : κ × α} (hj : i ≠ j) (hx : (s.peer j).pending[n]? = some x)
      (hl : (s.peer i).loaded = false) : Effect s i (.accept j n) (s.server ++ [x]) (s.peer i)
  | reject {n : Nat} {x : κ × α} (hx : (s.peer i).pending[n]? = some x) : Effect s i (.reject i n) s.server
      { s.peer i with
        pending := (s.peer i).pending.eraseIdx n
        removed := if (s.peer i).loaded then (s.peer i).removed ++ [x] else (s.peer i).removed }
  | deliver {n : Nat} {x : κ × α} (hx : (s.peer i).inbox[n]? = some x) : Effect s i (.deliver i n) s.server
      { s.peer i with inbox := (s.peer i).inbox.eraseIdx n, reported := (s.peer i).reported ++ [x] }
  | elsewhere {e : Event ι κ α} (he : e.peer ≠ i) (ha : ∀ n, e ≠ .accept e.peer n) : Effect s i e s.server (s.peer i)

variable {s s' : Net ι κ α} {e : Event ι κ α}

section Effects

variable [DecidableEq ι]

/-- Every step has its effect on every peer. -/
theorem effect_of_step (h : s.step e = some s') (i : ι) : Effect s i e s'.server (s'.peer i) := by
  cases e with
  | load j =>
    simp only [step] at h
    split at h
    · cases h
    · rename_i hl
      cases h
      by_cases hij : i = j
      · subst hij
        simpa [setPeer] using Effect.load (s := s) (i := i) (by simpa using hl)
      · simpa [setPeer, Function.update_of_ne hij] using
          Effect.elsewhere (s := s) (i := i) (e := .load j) (Ne.symm hij) (by simp)
  | write j k a =>
    simp only [step] at h
    split at h
    · cases h
    · cases h
      by_cases hij : i = j
      · subst hij
        simpa [setPeer] using Effect.write (s := s) (i := i) (a := a) ‹_›
      · simpa [setPeer, Function.update_of_ne hij] using
          Effect.elsewhere (s := s) (i := i) (e := .write j k a) (Ne.symm hij) (by simp)
  | accept j n =>
    simp only [step] at h
    split at h
    · rename_i x hx
      cases h
      by_cases hij : i = j
      · subst hij
        simpa using Effect.accept (s := s) (i := i) hx
      · cases hl : (s.peer i).loaded with
        | true => simpa [hij, hl] using Effect.acceptOther (s := s) (i := i) hij hx hl
        | false => simpa [hij, hl] using Effect.acceptUnseen (s := s) (i := i) hij hx hl
    · cases h
  | reject j n =>
    simp only [step] at h
    split at h
    · rename_i x hx
      cases h
      by_cases hij : i = j
      · subst hij
        simpa [setPeer] using Effect.reject (s := s) (i := i) hx
      · simpa [setPeer, Function.update_of_ne hij] using
          Effect.elsewhere (s := s) (i := i) (e := .reject j n) (Ne.symm hij) (by simp)
    · cases h
  | deliver j n =>
    simp only [step] at h
    split at h
    · rename_i x hx
      cases h
      by_cases hij : i = j
      · subst hij
        simpa [setPeer] using Effect.deliver (s := s) (i := i) hx
      · simpa [setPeer, Function.update_of_ne hij] using
          Effect.elsewhere (s := s) (i := i) (e := .deliver j n) (Ne.symm hij) (by simp)
    · cases h

theorem effect_reported {i : ι} {server' : List (κ × α)} {p' : Peer κ α} (h : Effect s i e server' p') :
    p'.reported = (s.peer i).reported ++ s.reports i e := by
  cases h with
  | write => cases hl : (s.peer i).loaded <;> simp [reports, hl]
  | deliver hx => simp [reports, hx]
  | elsewhere he ha =>
    have hne : i ≠ e.peer := Ne.symm he
    cases e with
    | accept j n => exact absurd rfl (ha n)
    | _ => simp only [Event.peer] at hne; simp [reports, hne]
  | _ => simp [reports]

/-- What was reported to a peer grows by what the event reports. -/
theorem reported_step (h : s.step e = some s') (i : ι) :
    (s'.peer i).reported = (s.peer i).reported ++ s.reports i e :=
  effect_reported (effect_of_step h i)

end Effects

/-! ## Conservation -/

/-- What a loaded peer was told or is about to be told is on the server, or pending, or was taken back. A peer that has
not loaded its view was told nothing. -/
structure Conserved (server : List (κ × α)) (p : Peer κ α) : Prop where
  loaded : p.loaded = true →
    (p.reported + p.inbox : Multiset (κ × α)) = server + p.pending + p.removed
  unloaded : p.loaded = false → p.reported = [] ∧ p.inbox = [] ∧ p.removed = []

/-- Taking an element out of a list. -/
theorem coe_eraseIdx {l : List α} {n : Nat} {x : α} (h : l[n]? = some x) :
    (l : Multiset α) = {x} + (l.eraseIdx n : Multiset α) := by
  obtain ⟨hn, rfl⟩ := List.getElem?_eq_some_iff.1 h
  rw [Multiset.singleton_add, Multiset.cons_coe, Multiset.coe_eq_coe]
  exact (List.getElem_cons_eraseIdx_perm hn).symm

theorem coe_snoc (l : List α) (x : α) : ((l ++ [x] : List α) : Multiset α) = l + {x} := by
  rw [← Multiset.coe_add, Multiset.coe_singleton]

theorem coe_sorted (l : List (κ × α)) : (sorted l : Multiset (κ × α)) = l :=
  Multiset.coe_eq_coe.2 (List.perm_insertionSort _ l)

theorem effect_conserved {i : ι} {server' : List (κ × α)} {p' : Peer κ α} (hc : Conserved s.server (s.peer i))
    (h : Effect s i e server' p') : Conserved server' p' := by
  cases h with
  | load hl =>
    obtain ⟨hr, hi, hm⟩ := hc.unloaded hl
    refine ⟨fun _ => ?_, fun h => by cases h⟩
    simp [hr, hi, hm, coe_sorted]
  | @write k a hk =>
    refine ⟨fun hl => ?_, fun hl => ?_⟩
    · rw [if_pos hl, coe_snoc, coe_snoc, add_right_comm, hc.loaded hl]
      abel
    · rw [if_neg (by rw [hl]; decide)]
      exact hc.unloaded hl
  | @accept n x hx =>
    refine ⟨fun hl => ?_, hc.unloaded⟩
    rw [hc.loaded hl, coe_snoc, coe_eraseIdx hx]
    abel
  | @acceptOther j n x hj hx hl =>
    refine ⟨fun _ => ?_, fun h => by rw [hl] at h; cases h⟩
    rw [coe_snoc, coe_snoc, ← add_assoc, hc.loaded hl]
    abel
  | acceptUnseen hj hx hl => exact ⟨fun h => (by rw [hl] at h; cases h), hc.unloaded⟩
  | @reject n x hx =>
    refine ⟨fun hl => ?_, fun hl => ?_⟩
    · rw [if_pos hl, hc.loaded hl, coe_snoc, coe_eraseIdx hx]
      abel
    · rw [if_neg (by rw [hl]; decide)]
      exact hc.unloaded hl
  | @deliver n x hx =>
    refine ⟨fun hl => ?_, fun hl => ?_⟩
    · rw [← hc.loaded hl, coe_snoc, coe_eraseIdx hx]
      abel
    · rw [(hc.unloaded hl).2.1] at hx
      cases hx
  | elsewhere => exact hc

/-- No write is unanswered and nothing is on its way. -/
def Quiet (s : Net ι κ α) : Prop := ∀ i, (s.peer i).pending = [] ∧ (s.peer i).inbox = []

omit [LinearOrder κ] in
/-- **At rest**, a peer was told the children of the server and those that were taken back from it. -/
theorem reported_perm {i : ι} (hc : Conserved s.server (s.peer i)) (hq : s.Quiet) (hl : (s.peer i).loaded = true) :
    (s.peer i).reported.Perm (s.server ++ (s.peer i).removed) := by
  have h := hc.loaded hl
  rw [(hq i).1, (hq i).2] at h
  rw [← Multiset.coe_eq_coe, ← Multiset.coe_add]
  simpa using h

/-- Something is taken back from a peer when a write of it is rejected while its view is loaded. -/
theorem effect_removed_iff {i : ι} {server' : List (κ × α)} {p' : Peer κ α} (h : Effect s i e server' p') :
    p'.removed = [] ↔ (s.peer i).removed = [] ∧ ∀ n, e = .reject i n → (s.peer i).loaded = false := by
  cases h with
  | reject hx => cases hl : (s.peer i).loaded <;> simp
  | elsewhere he ha =>
    refine (and_iff_left ?_).symm
    rintro n rfl
    exact absurd rfl he
  | _ => simp

/-- What is taken back from a peer was pending. -/
theorem effect_removed {i : ι} {server' : List (κ × α)} {p' : Peer κ α} (h : Effect s i e server' p') {x : κ × α}
    (hx : x ∈ p'.removed) : x ∈ (s.peer i).removed ∨ x ∈ (s.peer i).pending := by
  cases h with
  | reject hn =>
    simp only at hx
    split at hx
    · rcases List.mem_append.1 hx with hx | hx
      · exact Or.inl hx
      · rw [List.mem_singleton.1 hx]
        exact Or.inr (List.mem_of_getElem? hn)
    · exact Or.inl hx
  | _ => exact Or.inl hx

/-! ## Keys -/

/-- No two children, and no two pending writes, have the same key. -/
structure KeysInv (s : Net ι κ α) : Prop where
  server : ∀ x ∈ s.server, x.1 ∈ s.used
  pending : ∀ i, ∀ x ∈ (s.peer i).pending, x.1 ∈ s.used
  nodup : ∀ i, ((s.server ++ (s.peer i).pending).map Prod.fst).Nodup
  apart : ∀ i j, i ≠ j → ∀ x ∈ (s.peer i).pending, ∀ y ∈ (s.peer j).pending, x.1 ≠ y.1

/-- A pending write was pending before, or it is new and its key is as well. -/
theorem effect_pending {i : ι} {server' : List (κ × α)} {p' : Peer κ α} (h : Effect s i e server' p') {x : κ × α}
    (hx : x ∈ p'.pending) : x ∈ (s.peer i).pending ∨ (e = .write i x.1 x.2 ∧ x.1 ∉ s.used) := by
  cases h with
  | write hk =>
    rcases List.mem_append.1 hx with hx | hx
    · exact Or.inl hx
    · rw [List.mem_singleton.1 hx]
      exact Or.inr ⟨rfl, hk⟩
  | accept | reject => exact Or.inl (List.mem_of_mem_eraseIdx hx)
  | _ => exact Or.inl hx

/-- A child was on the server before, or it was pending and is accepted. -/
theorem effect_server {i : ι} {server' : List (κ × α)} {p' : Peer κ α} (h : Effect s i e server' p') {x : κ × α}
    (hx : x ∈ server') : x ∈ s.server ∨ ∃ j, x ∈ (s.peer j).pending := by
  cases h with
  | accept hn | acceptOther _ hn | acceptUnseen _ hn =>
    rcases List.mem_append.1 hx with hx | hx
    · exact Or.inl hx
    · rw [List.mem_singleton.1 hx]
      exact Or.inr ⟨_, List.mem_of_getElem? hn⟩
  | _ => exact Or.inl hx

omit [LinearOrder κ] in
/-- A key that is used by the server or by a peer. -/
theorem KeysInv.mem_used (hi : KeysInv s) {i : ι} {k : κ} (hk : k ∈ (s.server ++ (s.peer i).pending).map Prod.fst) :
    k ∈ s.used := by
  obtain ⟨x, hx, rfl⟩ := List.mem_map.1 hk
  rcases List.mem_append.1 hx with hx | hx
  · exact hi.server x hx
  · exact hi.pending i x hx

omit [LinearOrder κ] in
/-- The server accepts a write of another peer. -/
theorem KeysInv.nodup_accept (hi : KeysInv s) {i j : ι} (hij : i ≠ j) {x : κ × α} (hx : x ∈ (s.peer j).pending) :
    (((s.server ++ [x]) ++ (s.peer i).pending).map Prod.fst).Nodup := by
  have hperm : ((s.server ++ [x]) ++ (s.peer i).pending).Perm (x :: (s.server ++ (s.peer i).pending)) := by
    rw [List.append_assoc]
    exact List.perm_middle
  rw [(hperm.map Prod.fst).nodup_iff, List.map_cons, List.nodup_cons]
  refine ⟨fun hmem => ?_, hi.nodup i⟩
  obtain ⟨y, hy, he⟩ := List.mem_map.1 hmem
  rcases List.mem_append.1 hy with hy | hy
  · have hj := hi.nodup j
    rw [List.map_append, List.nodup_append] at hj
    exact hj.2.2 y.1 (List.mem_map_of_mem hy) x.1 (List.mem_map_of_mem hx) he
  · exact hi.apart i j hij y hy x hx he

theorem KeysInv.nodup_effect (hi : KeysInv s) {i : ι} {server' : List (κ × α)} {p' : Peer κ α}
    (h : Effect s i e server' p') : ((server' ++ p'.pending).map Prod.fst).Nodup := by
  cases h with
  | @write k a hk =>
    rw [← List.append_assoc, List.map_append, List.nodup_append]
    refine ⟨hi.nodup i, by simp, fun y hy z hz hyz => hk ?_⟩
    obtain rfl : z = k := by simpa using hz
    exact hyz ▸ hi.mem_used hy
  | @accept n x hx =>
    have hperm : (s.server ++ [x] ++ (s.peer i).pending.eraseIdx n).Perm (s.server ++ (s.peer i).pending) := by
      rw [← Multiset.coe_eq_coe]
      simp only [← Multiset.coe_add, coe_eraseIdx hx, Multiset.coe_singleton, add_assoc]
    rw [(hperm.map Prod.fst).nodup_iff]
    exact hi.nodup i
  | acceptOther hj hx hl => exact hi.nodup_accept hj (List.mem_of_getElem? hx)
  | acceptUnseen hj hx hl => exact hi.nodup_accept hj (List.mem_of_getElem? hx)
  | @reject n x hx =>
    refine (hi.nodup i).sublist (List.Sublist.map _ ?_)
    exact (List.Sublist.refl _).append (List.eraseIdx_sublist _ n)
  | _ => exact hi.nodup i

/-! ## Order -/

/-- What an event reports to the peer `i` comes after everything reported to it before. -/
def InOrder [DecidableEq ι] (i : ι) (s : Net ι κ α) (e : Event ι κ α) : Prop :=
  ∀ x ∈ (s.peer i).reported, ∀ y ∈ s.reports i e, x.1 ≤ y.1

theorem sorted_pairwise (l : List (κ × α)) : (sorted l).Pairwise fun x y => x.1 ≤ y.1 := by
  have : Std.Total (fun x y : κ × α => x.1 ≤ y.1) := ⟨fun x y => le_total x.1 y.1⟩
  have : IsTrans (κ × α) (fun x y => x.1 ≤ y.1) := ⟨fun _ _ _ => le_trans⟩
  exact List.pairwise_insertionSort _ l

/-- **At rest**, a peer that nothing was taken back from and that was told everything in the order of the keys was told
the sorted list of the server's children. -/
theorem reported_eq_sorted {i : ι} (hc : Conserved s.server (s.peer i)) (hk : KeysInv s) (hq : s.Quiet)
    (hl : (s.peer i).loaded = true) (hr : (s.peer i).removed = [])
    (ho : (s.peer i).reported.Pairwise fun x y => x.1 ≤ y.1) : (s.peer i).reported = sorted s.server := by
  have hperm : (s.peer i).reported.Perm s.server := by
    have h := reported_perm hc hq hl
    rwa [hr, List.append_nil] at h
  have hnodup : (s.server.map Prod.fst).Nodup := by
    have h := hk.nodup i
    rwa [(hq i).1, List.append_nil] at h
  refine List.Perm.eq_of_pairwise (fun x y hx hy hxy hyx => ?_) ho (sorted_pairwise _)
    (hperm.trans (List.perm_insertionSort _ _).symm)
  exact List.inj_on_of_nodup_map hnodup (hperm.subset hx) ((List.mem_insertionSort _).1 hy) (le_antisymm hxy hyx)

/-! ## Runs -/

variable [DecidableEq ι] {server : List (κ × α)} {es : List (Event ι κ α)}

theorem run_conserved (h : run step (initial ι server) es = some s) (i : ι) : Conserved s.server (s.peer i) := by
  have hinit : ∀ i, Conserved server ((initial ι server).peer i) :=
    fun i => ⟨fun h => (nomatch h), fun _ => ⟨rfl, rfl, rfl⟩⟩
  exact run_inv (I := fun s => ∀ i, Conserved s.server (s.peer i))
    (fun _ _ _ hi hs i => effect_conserved (hi i) (effect_of_step hs i)) h hinit i

theorem step_used (h : s.step e = some s') : s'.used = match e with
    | .write _ k _ => k :: s.used
    | _ => s.used := by
  cases e with
  | load | write =>
    simp only [step] at h
    split at h
    · cases h
    · cases h; rfl
  | accept | reject | deliver =>
    simp only [step] at h
    split at h
    · cases h; rfl
    · cases h

theorem used_subset_step (h : s.step e = some s') : s.used ⊆ s'.used := by
  rw [step_used h]
  cases e <;> simp

theorem step_keysInv (hi : KeysInv s) (h : s.step e = some s') : KeysInv s' := by
  have heff := effect_of_step h
  have hsub := used_subset_step h
  refine ⟨fun x hx => ?_, fun i x hx => ?_, fun i => hi.nodup_effect (heff i), fun i j hij x hx y hy hxy => ?_⟩
  · rcases effect_server (heff e.peer) hx with hx | ⟨j, hx⟩
    · exact hsub (hi.server x hx)
    · exact hsub (hi.pending j x hx)
  · rcases effect_pending (heff i) hx with hx | ⟨rfl, -⟩
    · exact hsub (hi.pending i x hx)
    · rw [step_used h]
      exact List.mem_cons_self
  · rcases effect_pending (heff i) hx with hx | ⟨he, hn⟩ <;> rcases effect_pending (heff j) hy with hy | ⟨he', hn'⟩
    · exact hi.apart i j hij x hx y hy hxy
    · exact hn' (hxy ▸ hi.pending i x hx)
    · exact hn (hxy ▸ hi.pending j y hy)
    · exact hij (Event.write.inj (he.symm.trans he')).1

theorem run_keysInv (hs : (server.map Prod.fst).Nodup) (h : run step (initial ι server) es = some s) : KeysInv s := by
  have hinit : KeysInv (initial ι server) := by
    refine ⟨fun x hx => List.mem_map_of_mem hx, ?_, ?_, ?_⟩ <;> simp [initial, hs]
  exact run_inv (fun _ _ _ hi hstep => step_keysInv hi hstep) h hinit

/-- Nothing is taken back in a run iff the server rejects no write while the view of its writer is loaded. -/
theorem run_removed_iff (h : run step (initial ι server) es = some s) : (∀ i, (s.peer i).removed = []) ↔
    Along step (fun s e => ∀ i n, e = .reject i n → (s.peer i).loaded = false) (initial ι server) es := by
  have hstep : ∀ (s : Net ι κ α) e s', s.step e = some s' → ((∀ i, (s'.peer i).removed = []) ↔
      (∀ i, (s.peer i).removed = []) ∧ ∀ i n, e = .reject i n → (s.peer i).loaded = false) := by
    intro s e s' hs
    rw [← forall_and]
    exact forall_congr' fun i => effect_removed_iff (effect_of_step hs i)
  rw [run_iff_along hstep h]
  simp [initial]

theorem reports_pairwise (s : Net ι κ α) (i : ι) (e : Event ι κ α) :
    (s.reports i e).Pairwise fun x y => x.1 ≤ y.1 := by
  cases e with
  | load j =>
    simp only [reports]
    split
    · exact sorted_pairwise _
    · exact .nil
  | write j k a =>
    simp only [reports]
    split <;> simp
  | accept | reject => exact .nil
  | deliver j n =>
    simp only [reports]
    split
    · cases (s.peer j).inbox[n]? <;> simp
    · exact .nil

/-- **The order at a peer** is that of the keys iff every event reports in order. -/
theorem run_pairwise_iff {i : ι} (h : run step (initial ι server) es = some s) :
    ((s.peer i).reported.Pairwise fun x y => x.1 ≤ y.1) ↔ Along step (InOrder i) (initial ι server) es := by
  have hstep : ∀ (s : Net ι κ α) e s', s.step e = some s' →
      (((s'.peer i).reported.Pairwise fun x y => x.1 ≤ y.1) ↔
        ((s.peer i).reported.Pairwise fun x y => x.1 ≤ y.1) ∧ InOrder i s e) := by
    intro s e s' hs
    rw [reported_step hs, List.pairwise_append]
    exact and_congr_right fun _ => and_iff_right (reports_pairwise s i e)
  rw [run_iff_along hstep h]
  simp [initial]

end Net

end Lib.Replica
