import ChatApp.Firebase.CompoundWrite
import ChatApp.Firebase.Node
import ChatApp.Lib.Runs
import Mathlib.Data.Int.Order.Basic

/-!
# Pending writes

`FWriteTree` keeps the writes that the server has not answered yet, oldest first (`allWrites`), and their combined
effect (`visibleWrites`). `FRepo` numbers the writes (`writeIdCounter`). An answered write is removed, and
`removeWriteId` tries not to rebuild the combined effect: a write that a later one covers leaves it as it is, a write
that no other overlaps is cut out of it, and only otherwise the remaining writes are layered again (`resetTree`). Keys
and writes are those of `CompoundWrite`: `stringComparator` tells the keys apart, and no priority is written.

- `addWrites_covered`: a write under a later one has no effect;
- `removeWrites_addWrites`: cutting out the paths of a write that the others are apart from;
- `Pending.removeWriteId`: the removal keeps `visibleWrites` equal to the layered writes, when no earlier pending write
  reaches the removed one from a place strictly above it and merges have plain keys (`Orderly`);
- `Repo.visibleWrites_eq`: so it is in every run, and no assertion fails;
- `Repo.applyToNode_visibleWrites`: what the client shows is the server's data with the pending writes carried out.
-/

namespace ChatApp

open Lib.Tree (Apart Same)
open Lib.Runs

variable {κ ℓ : Type} [LinearOrder κ]

/-! ## Lists of writes -/

namespace CompoundWrite

/-- Writes one after the other. -/
def addWrites (ws : List (List κ × Lib.Tree κ ℓ)) (cw : CompoundWrite κ ℓ) : CompoundWrite κ ℓ :=
  ws.foldl (fun newWrite e => newWrite.addWrite e.2 e.1) cw

def removeWrites (ps : List (List κ)) (cw : CompoundWrite κ ℓ) : CompoundWrite κ ℓ :=
  ps.foldl removeWriteAtPath cw

@[simp] theorem addWrites_nil (cw : CompoundWrite κ ℓ) : addWrites [] cw = cw := rfl

theorem addWrites_cons (w : List κ × Lib.Tree κ ℓ) (ws : List (List κ × Lib.Tree κ ℓ)) (cw : CompoundWrite κ ℓ) :
    addWrites (w :: ws) cw = addWrites ws (cw.addWrite w.2 w.1) := rfl

theorem addWrites_append (vs ws : List (List κ × Lib.Tree κ ℓ)) (cw : CompoundWrite κ ℓ) :
    addWrites (vs ++ ws) cw = addWrites ws (addWrites vs cw) := List.foldl_append

variable {cw : CompoundWrite κ ℓ}

theorem removeWrite_addWrite_apart (cw : CompoundWrite κ ℓ) (n : Lib.Tree κ ℓ) {p r : List κ} (h : Apart p r) :
    (cw.addWrite n r).removeWriteAtPath p = (cw.removeWriteAtPath p).addWrite n r :=
  CompoundWrite.ext (removeWriteTree_addWriteTree_apart cw.leafValues n h)

theorem removeWrite_addWrite_below (n : Lib.Tree κ ℓ) {p r : List κ} (hp : Uncovered cw.writeTree p) (h : p <+: r) :
    (cw.addWrite n r).removeWriteAtPath p = cw.removeWriteAtPath p := by
  obtain ⟨q, rfl⟩ := h
  exact CompoundWrite.ext (removeWriteTree_addWriteTree_below cw.leafValues n hp q)

theorem addWrite_removeWrite (cw : CompoundWrite κ ℓ) (n : Lib.Tree κ ℓ) {p r : List κ} (h : r <+: p) :
    (cw.removeWriteAtPath p).addWrite n r = cw.addWrite n r := by
  obtain ⟨q, rfl⟩ := h
  exact CompoundWrite.ext (addWriteTree_removeWriteTree cw.leafValues n r q)

theorem removeWrite_addWrites_apart {ws : List (List κ × Lib.Tree κ ℓ)} {p : List κ} (h : ∀ w ∈ ws, Apart p w.1)
    (cw : CompoundWrite κ ℓ) : (addWrites ws cw).removeWriteAtPath p = addWrites ws (cw.removeWriteAtPath p) := by
  induction ws generalizing cw with
  | nil => rfl
  | cons w ws ih =>
    obtain ⟨hw, hws⟩ := List.forall_mem_cons.1 h
    rw [addWrites_cons, addWrites_cons, ih hws, removeWrite_addWrite_apart _ _ hw]

/-- The values of the combined writes are at paths of the writes. -/
theorem valueAtPath_addWrites {ws : List (List κ × Lib.Tree κ ℓ)} {q : List κ}
    (h : (addWrites ws cw).writeTree.valueAtPath q ≠ none) :
    q ∈ ws.map Prod.fst ∨ cw.writeTree.valueAtPath q ≠ none := by
  induction ws generalizing cw with
  | nil => exact Or.inr h
  | cons w ws ih =>
    rw [addWrites_cons] at h
    rcases ih h with h | h
    · exact Or.inl (List.mem_cons_of_mem _ h)
    · rcases valueAtPath_addWriteTree cw.leafValues w.2 w.1 q h with ⟨rfl, -⟩ | h
      · exact Or.inl List.mem_cons_self
      · exact Or.inr h

theorem valueAtPath_addWrites_empty {ws : List (List κ × Lib.Tree κ ℓ)} {q : List κ}
    (h : (addWrites ws (emptyWrite : CompoundWrite κ ℓ)).writeTree.valueAtPath q ≠ none) : q ∈ ws.map Prod.fst := by
  rcases valueAtPath_addWrites h with h | h
  · exact h
  · cases q <;> exact absurd rfl h

/-- A write keeps a path uncovered unless it is strictly above it. -/
theorem uncovered_addWrite {p r : List κ} (hp : Uncovered cw.writeTree p) (n : Lib.Tree κ ℓ)
    (h : r <+: p → r = p) : Uncovered (cw.addWrite n r).writeTree p := by
  intro q hq hne
  by_contra hv
  rcases valueAtPath_addWriteTree cw.leafValues n r q hv with ⟨rfl, -⟩ | hv
  · exact hne (h hq)
  · exact hv (hp q hq hne)

/-! ### A covered write -/

/-- Writes that agree but for what is at and below `p` agree after a write at or above `p`. -/
theorem addWrites_eq_of_cover {p : List κ} {c d : CompoundWrite κ ℓ}
    (hrem : c.removeWriteAtPath p = d.removeWriteAtPath p) (hc : Uncovered c.writeTree p)
    (hd : Uncovered d.writeTree p) {ws : List (List κ × Lib.Tree κ ℓ)} (hw : ∃ w ∈ ws, w.1 <+: p) :
    addWrites ws c = addWrites ws d := by
  induction ws generalizing c d with
  | nil => obtain ⟨w, hw, -⟩ := hw; cases hw
  | cons v ws ih =>
    rw [addWrites_cons, addWrites_cons]
    by_cases hv : v.1 <+: p
    · rw [← addWrite_removeWrite c v.2 hv, hrem, addWrite_removeWrite d v.2 hv]
    · obtain ⟨w, hw, hwp⟩ := hw
      have hw' : w ∈ ws := by
        rcases List.mem_cons.1 hw with rfl | hw
        · exact absurd hwp hv
        · exact hw
      have hkeep : v.1 <+: p → v.1 = p := fun h => absurd h hv
      apply ih _ (uncovered_addWrite hc v.2 hkeep) (uncovered_addWrite hd v.2 hkeep) ⟨w, hw', hwp⟩
      by_cases hpv : p <+: v.1
      · rw [removeWrite_addWrite_below _ hc hpv, removeWrite_addWrite_below _ hd hpv, hrem]
      · rw [removeWrite_addWrite_apart _ _ ⟨hpv, hv⟩, removeWrite_addWrite_apart _ _ ⟨hpv, hv⟩, hrem]

theorem removeWrite_addWrites_below {p : List κ} {ws : List (List κ × Lib.Tree κ ℓ)} (hws : ∀ w ∈ ws, p <+: w.1)
    (hc : Uncovered cw.writeTree p) : (addWrites ws cw).removeWriteAtPath p = cw.removeWriteAtPath p ∧
      Uncovered (addWrites ws cw).writeTree p := by
  induction ws generalizing cw with
  | nil => exact ⟨rfl, hc⟩
  | cons w ws ih =>
    obtain ⟨hw, hws⟩ := List.forall_mem_cons.1 hws
    have hkeep : w.1 <+: p → w.1 = p := fun h => h.eq_of_length_le hw.length_le
    rw [addWrites_cons]
    obtain ⟨hrem, hunc⟩ := ih hws (uncovered_addWrite hc w.2 hkeep)
    exact ⟨hrem.trans (removeWrite_addWrite_below w.2 hc hw), hunc⟩

/-- **Writes at and below `p` that a later write at or above `p` covers** have no effect. -/
theorem addWrites_covered {p : List κ} {vs ws : List (List κ × Lib.Tree κ ℓ)} (hc : Uncovered cw.writeTree p)
    (hvs : ∀ v ∈ vs, p <+: v.1) (hws : ∃ w ∈ ws, w.1 <+: p) :
    addWrites ws (addWrites vs cw) = addWrites ws cw := by
  obtain ⟨hrem, hunc⟩ := removeWrite_addWrites_below hvs hc
  exact addWrites_eq_of_cover hrem hunc hc hws

/-! ### A write that the others are apart from -/

theorem removeWriteAtPath_eq_self {p : List κ} (h : ∀ q, cw.writeTree.valueAtPath (p ++ q) = none) :
    cw.removeWriteAtPath p = cw :=
  CompoundWrite.ext (removeWriteTree_eq_self cw.leafValues h)

/-- **Cutting out the paths of a write** that nothing else touches takes the write back. -/
theorem removeWrites_addWrites {vs : List (List κ × Lib.Tree κ ℓ)} (hvs : vs.Pairwise fun v w => Apart v.1 w.1)
    (hunc : ∀ v ∈ vs, Uncovered cw.writeTree v.1) (hbelow : ∀ v ∈ vs, ∀ q, cw.writeTree.valueAtPath (v.1 ++ q) = none) :
    removeWrites (vs.map Prod.fst) (addWrites vs cw) = cw := by
  induction vs with
  | nil => rfl
  | cons v vs ih =>
    obtain ⟨hv, hvs⟩ := List.pairwise_cons.1 hvs
    obtain ⟨huncv, hunc⟩ := List.forall_mem_cons.1 hunc
    obtain ⟨hbelowv, hbelow⟩ := List.forall_mem_cons.1 hbelow
    have hfirst : (addWrites (v :: vs) cw).removeWriteAtPath v.1 = addWrites vs cw := by
      rw [addWrites_cons, removeWrite_addWrites_apart hv, removeWrite_addWrite_below _ huncv (List.prefix_refl _),
        removeWriteAtPath_eq_self hbelowv]
    rw [List.map_cons, removeWrites, List.foldl_cons, hfirst]
    exact ih hvs hunc hbelow

theorem removeWrites_addWrites_apart {ps : List (List κ)} {ws : List (List κ × Lib.Tree κ ℓ)}
    (h : ∀ p ∈ ps, ∀ w ∈ ws, Apart p w.1) (cw : CompoundWrite κ ℓ) :
    removeWrites ps (addWrites ws cw) = addWrites ws (removeWrites ps cw) := by
  induction ps generalizing cw with
  | nil => rfl
  | cons p ps ih =>
    obtain ⟨hp, hps⟩ := List.forall_mem_cons.1 h
    rw [removeWrites, List.foldl_cons, removeWrite_addWrites_apart hp]
    exact ih hps _

/-! ### Writes one after the other on a node -/

/-- Each write finds no leaf strictly above its path. -/
def ClearAlong : List (List κ × Lib.Tree κ ℓ) → Lib.Tree κ ℓ → Prop
  | [], _ => True
  | w :: ws, t => t.Clear w.1 ∧ ClearAlong ws (t.set w.1 w.2)

theorem ClearAlong.congr {ws : List (List κ × Lib.Tree κ ℓ)} {t u : Lib.Tree κ ℓ} (h : ClearAlong ws t)
    (hs : Same t u) : ClearAlong ws u := by
  induction ws generalizing t u with
  | nil => trivial
  | cons w ws ih => exact ⟨h.1.congr hs, ih h.2 (hs.set (Same.refl _) h.1)⟩

theorem foldl_set_congr {ws : List (List κ × Lib.Tree κ ℓ)} {t u : Lib.Tree κ ℓ} (h : ClearAlong ws t)
    (hs : Same t u) : Same (ws.foldl (fun n w => n.set w.1 w.2) t) (ws.foldl (fun n w => n.set w.1 w.2) u) := by
  induction ws generalizing t u with
  | nil => exact hs
  | cons w ws ih => exact ih h.2 (hs.set (Same.refl _) h.1)

/-- **Applying combined writes is writing one after the other.** -/
theorem applyToNode_addWrites {ws : List (List κ × Lib.Tree κ ℓ)} {t : Lib.Tree κ ℓ} (hcw : cw.ClearFor t)
    (h : ClearAlong ws (cw.applyToNode t)) :
    Same ((addWrites ws cw).applyToNode t) (ws.foldl (fun n w => n.set w.1 w.2) (cw.applyToNode t)) := by
  induction ws generalizing cw with
  | nil => exact Same.refl _
  | cons w ws ih =>
    have hone := applyToNode_addWrite hcw h.1 w.2
    rw [addWrites_cons, List.foldl_cons]
    exact (ih (hcw.addWrite h.1 w.2) (h.2.congr hone.symm)).trans (foldl_set_congr (h.2.congr hone.symm) hone)

theorem applyToNode_addWrites_empty {ws : List (List κ × Lib.Tree κ ℓ)} {t : Lib.Tree κ ℓ} (h : ClearAlong ws t) :
    Same ((addWrites ws emptyWrite).applyToNode t) (ws.foldl (fun n w => n.set w.1 w.2) t) :=
  @applyToNode_addWrites κ ℓ _ emptyWrite ws t (fun p hp => by cases p <;> exact absurd rfl hp) h

end CompoundWrite

/-! ## Write records -/

/-- What a write does: it replaces a node, or some of the nodes below it. -/
inductive WriteData (κ ℓ : Type) [LinearOrder κ]
  | overwrite (newData : Lib.Tree κ ℓ) (visible : Bool)
  | merge (changedChildren : CompoundWrite κ ℓ)

/-- `FWriteRecord`. -/
structure WriteRecord (κ ℓ : Type) [LinearOrder κ] where
  writeId : Int
  path : List κ
  data : WriteData κ ℓ

namespace WriteRecord

/-- A merge is always visible. -/
def visible (record : WriteRecord κ ℓ) : Bool :=
  match record.data with
  | .overwrite _ visible => visible
  | .merge _ => true

/-- The paths a record writes to, with their nodes. -/
def writes (record : WriteRecord κ ℓ) : List (List κ × Lib.Tree κ ℓ) :=
  match record.data with
  | .overwrite newData _ => [(record.path, newData)]
  | .merge changedChildren => changedChildren.writes.map fun e => (record.path ++ e.1, e.2)

/-- `record:containsPath:`. -/
def containsPath (record : WriteRecord κ ℓ) (path : List κ) : Bool :=
  match record.data with
  | .overwrite _ _ => decide (record.path <+: path)
  | .merge changedChildren => changedChildren.writes.any fun e => decide (record.path ++ e.1 <+: path)

/-- The keys of a merge are single path components. -/
def Plain (record : WriteRecord κ ℓ) : Prop := ∀ e ∈ record.writes, e.1 = record.path ∨ ∃ k, e.1 = record.path ++ [k]

variable {record : WriteRecord κ ℓ}

theorem containsPath_iff {p : List κ} : record.containsPath p = true ↔ ∃ e ∈ record.writes, e.1 <+: p := by
  unfold containsPath writes
  cases record.data with
  | overwrite n v => simp
  | merge cw =>
    rw [List.any_eq_true]
    constructor
    · rintro ⟨e, he, hp⟩
      exact ⟨_, List.mem_map_of_mem he, of_decide_eq_true hp⟩
    · rintro ⟨e, he, hp⟩
      obtain ⟨d, hd, rfl⟩ := List.mem_map.1 he
      exact ⟨d, hd, decide_eq_true hp⟩

theorem path_prefix {e : List κ × Lib.Tree κ ℓ} (h : e ∈ record.writes) : record.path <+: e.1 := by
  unfold writes at h
  cases hd : record.data with
  | overwrite n v =>
    rw [hd, List.mem_singleton] at h
    rw [h]
  | merge cw =>
    rw [hd] at h
    obtain ⟨d, -, rfl⟩ := List.mem_map.1 h
    exact List.prefix_append _ _

theorem writes_apart (record : WriteRecord κ ℓ) : record.writes.Pairwise fun v w => Apart v.1 w.1 := by
  unfold writes
  cases record.data with
  | overwrite n v => exact List.pairwise_singleton _ _
  | merge cw =>
    rw [List.pairwise_map]
    exact cw.leafValues.forEach_apart.imp fun h => Lib.Tree.apart_append.2 h

/-- A plain write that neither covers `p` nor is at or below it touches nothing of `p`. -/
theorem Plain.apart (h : record.Plain) {p : List κ} (hc : record.containsPath p = false) (hp : ¬p <+: record.path)
    {e : List κ × Lib.Tree κ ℓ} (he : e ∈ record.writes) : Apart p e.1 := by
  have hnot : ¬e.1 <+: p := fun hep => by
    rw [containsPath_iff.2 ⟨e, he, hep⟩] at hc
    cases hc
  refine ⟨fun hpe => ?_, hnot⟩
  rcases h e he with heq | ⟨k, heq⟩
  · exact hp (heq ▸ hpe)
  · rw [heq, List.prefix_concat_iff] at hpe
    rcases hpe with hpe | hpe
    · exact hnot (by rw [heq, hpe])
    · exact hp hpe

end WriteRecord

/-! ## The write tree -/

/-- `FWriteTree`. -/
structure WriteTree (κ ℓ : Type) [LinearOrder κ] where
  visibleWrites : CompoundWrite κ ℓ
  allWrites : List (WriteRecord κ ℓ)
  lastWriteId : Int

namespace WriteTree

def init : WriteTree κ ℓ := ⟨CompoundWrite.emptyWrite, [], -1⟩

/-- `NSAssert`. -/
def assertion (reason : String) : Fault := .exception "NSInternalInconsistencyException" reason

def addOverwriteAtPath (wt : WriteTree κ ℓ) (path : List κ) (newData : Lib.Tree κ ℓ) (writeId : Int) (visible : Bool) :
    Except Fault (WriteTree κ ℓ) :=
  if wt.lastWriteId < writeId then
    .ok { visibleWrites := if visible then wt.visibleWrites.addWrite newData path else wt.visibleWrites
          allWrites := wt.allWrites ++ [⟨writeId, path, .overwrite newData visible⟩]
          lastWriteId := writeId }
  else .error (assertion "Stacking an older write on top of a newer one")

def addMergeAtPath (wt : WriteTree κ ℓ) (path : List κ) (changedChildren : CompoundWrite κ ℓ) (writeId : Int) :
    Except Fault (WriteTree κ ℓ) :=
  if wt.lastWriteId < writeId then
    .ok { visibleWrites := wt.visibleWrites.addCompoundWrite changedChildren path
          allWrites := wt.allWrites ++ [⟨writeId, path, .merge changedChildren⟩]
          lastWriteId := writeId }
  else .error (assertion "Stacking an older merge on top of newer one")

/-- The layer that a record adds to the writes below `treeRoot`. -/
def layerRecord (treeRoot : List κ) (cw : CompoundWrite κ ℓ) (record : WriteRecord κ ℓ) : CompoundWrite κ ℓ :=
  match record.data with
  | .overwrite newData _ =>
    if treeRoot <+: record.path then cw.addWrite newData (record.path.drop treeRoot.length)
    else if record.path <+: treeRoot then cw.addWrite (newData.get (treeRoot.drop record.path.length)) []
    else cw
  | .merge changedChildren =>
    if treeRoot <+: record.path then cw.addCompoundWrite changedChildren (record.path.drop treeRoot.length)
    else if record.path <+: treeRoot then
      -- the node at the root path is looked up below that path once more
      match changedChildren.completeNodeAtPath (treeRoot.drop record.path.length) with
      | some child => cw.addWrite (child.get (treeRoot.drop record.path.length).tail) []
      | none => cw
    else cw

def layerTreeFromWrites (writes : List (WriteRecord κ ℓ)) (filter : WriteRecord κ ℓ → Bool) (treeRoot : List κ) :
    CompoundWrite κ ℓ :=
  (writes.filter filter).foldl (layerRecord treeRoot) CompoundWrite.emptyWrite

/-- "Keep everything that's visible": it keeps everything. -/
def defaultFilter (_ : WriteRecord κ ℓ) : Bool := true

def resetTree (wt : WriteTree κ ℓ) : WriteTree κ ℓ :=
  { wt with
    visibleWrites := layerTreeFromWrites wt.allWrites defaultFilter []
    lastWriteId := (wt.allWrites.getLast?.map WriteRecord.writeId).getD (-1) }

/-- The loop of `removeWriteId:`, from the latest write to the oldest, with their indices: whether the removed write was
visible, and whether it overlaps with other writes. -/
def scanWrites (writeToRemove : WriteRecord κ ℓ) (index : Nat) :
    List (WriteRecord κ ℓ × Nat) → Bool → Bool × Bool
  | [], overlaps => (true, overlaps)
  | (currentWrite, i) :: rest, overlaps =>
    if currentWrite.visible then
      if index ≤ i ∧ currentWrite.containsPath writeToRemove.path then (false, overlaps)
      else if writeToRemove.path <+: currentWrite.path then scanWrites writeToRemove index rest true
      else scanWrites writeToRemove index rest overlaps
    else scanWrites writeToRemove index rest overlaps

/-- Take the record at an index out; the flag says whether it may have been visible. -/
def removeRecord (wt : WriteTree κ ℓ) (index : Nat) (writeToRemove : WriteRecord κ ℓ) : Bool × WriteTree κ ℓ :=
  let rest := { wt with allWrites := wt.allWrites.eraseIdx index }
  if writeToRemove.visible then
    match scanWrites writeToRemove index rest.allWrites.zipIdx.reverse false with
    | (false, _) => (false, rest)
    | (true, true) => (true, rest.resetTree)
    | (true, false) =>
      match writeToRemove.data with
      | .overwrite _ _ => (true, { rest with visibleWrites := wt.visibleWrites.removeWriteAtPath writeToRemove.path })
      | .merge merge => (true, { rest with
          visibleWrites := merge.writes.foldl (fun cw e => cw.removeWriteAtPath (writeToRemove.path ++ e.1))
            wt.visibleWrites })
  else (false, rest)

def removeWriteId (wt : WriteTree κ ℓ) (writeId : Int) : Except Fault (Bool × WriteTree κ ℓ) :=
  match wt.allWrites.findIdx? fun record => record.writeId = writeId with
  | none => .error (assertion "[FWriteTree removeWriteId:] called with nonexistent writeId.")
  | some index =>
    match wt.allWrites[index]? with
    | none => .error .indexOutOfRange
    | some writeToRemove => .ok (wt.removeRecord index writeToRemove)

/-! ### Layers -/

/-- The writes of the records, in their order. -/
def layered (records : List (WriteRecord κ ℓ)) : CompoundWrite κ ℓ :=
  CompoundWrite.addWrites (records.flatMap WriteRecord.writes) CompoundWrite.emptyWrite

theorem addCompoundWrite_eq (cw merge : CompoundWrite κ ℓ) (p : List κ) : cw.addCompoundWrite merge p =
    CompoundWrite.addWrites (merge.writes.map fun e => (p ++ e.1, e.2)) cw := by
  rw [CompoundWrite.addCompoundWrite, CompoundWrite.addWrites, List.foldl_map]

theorem layerRecord_nil (cw : CompoundWrite κ ℓ) (record : WriteRecord κ ℓ) :
    layerRecord [] cw record = CompoundWrite.addWrites record.writes cw := by
  unfold layerRecord WriteRecord.writes
  cases record.data with
  | overwrite n v => rfl
  | merge merge =>
    rw [← addCompoundWrite_eq]
    rfl

/-- Rebuilding layers the writes of all records. -/
theorem layerTreeFromWrites_eq (records : List (WriteRecord κ ℓ)) :
    layerTreeFromWrites records defaultFilter [] = layered records := by
  have hall : records.filter defaultFilter = records := List.filter_eq_self.2 fun _ _ => rfl
  rw [layerTreeFromWrites, hall, layered]
  generalize (CompoundWrite.emptyWrite : CompoundWrite κ ℓ) = cw
  induction records generalizing cw with
  | nil => rfl
  | cons r records ih =>
    rw [List.foldl_cons, List.flatMap_cons, CompoundWrite.addWrites_append, layerRecord_nil]
    exact ih (List.filter_eq_self.2 fun _ _ => rfl) _

theorem layered_append (rs ss : List (WriteRecord κ ℓ)) :
    layered (rs ++ ss) = CompoundWrite.addWrites (ss.flatMap WriteRecord.writes) (layered rs) := by
  rw [layered, List.flatMap_append, CompoundWrite.addWrites_append, layered]

theorem layered_concat (rs : List (WriteRecord κ ℓ)) (r : WriteRecord κ ℓ) :
    layered (rs ++ [r]) = CompoundWrite.addWrites r.writes (layered rs) := by
  simp [layered_append]

/-- The values of the layers are at paths of their records. -/
theorem valueAtPath_layered {rs : List (WriteRecord κ ℓ)} {q : List κ}
    (h : (layered rs).writeTree.valueAtPath q ≠ none) : ∃ r ∈ rs, ∃ e ∈ r.writes, e.1 = q := by
  obtain ⟨e, he, rfl⟩ := List.mem_map.1 (CompoundWrite.valueAtPath_addWrites_empty h)
  obtain ⟨r, hr, he⟩ := List.mem_flatMap.1 he
  exact ⟨r, hr, e, he, rfl⟩

/-! ### The loop -/

theorem scanWrites_fst {w : WriteRecord κ ℓ} {index : Nat} {l : List (WriteRecord κ ℓ × Nat)} {o : Bool} :
    (scanWrites w index l o).1 = false ↔
      ∃ c ∈ l, c.1.visible = true ∧ index ≤ c.2 ∧ c.1.containsPath w.path = true := by
  induction l generalizing o with
  | nil => simp [scanWrites]
  | cons c l ih =>
    obtain ⟨c, i⟩ := c
    simp only [List.mem_cons, exists_eq_or_imp]
    unfold scanWrites
    split
    · rename_i hv
      split
      · rename_i hc
        simp [hv, hc]
      · rename_i hc
        split <;> simp [ih, hv, hc]
    · rename_i hv
      simp [ih, hv]

theorem scanWrites_snd {w : WriteRecord κ ℓ} {index : Nat} {l : List (WriteRecord κ ℓ × Nat)} {o : Bool}
    (h : (scanWrites w index l o).1 = true) : (scanWrites w index l o).2 = true ↔
      o = true ∨ ∃ c ∈ l, c.1.visible = true ∧ w.path <+: c.1.path := by
  induction l generalizing o with
  | nil => simp [scanWrites]
  | cons c l ih =>
    obtain ⟨c, i⟩ := c
    simp only [List.mem_cons, exists_eq_or_imp]
    unfold scanWrites at h ⊢
    split
    · rename_i hv
      rw [if_pos hv] at h
      split
      · rename_i hc
        rw [if_pos hc] at h
        cases h
      · rename_i hc
        rw [if_neg hc] at h
        split
        · rename_i hp
          rw [if_pos hp] at h
          simp [ih h, hv, hp]
        · rename_i hp
          rw [if_neg hp] at h
          simp [ih h, hp]
    · rename_i hv
      rw [if_neg hv] at h
      simp [ih h, hv]

/-! ### Removal -/

/-- What holds between the pending writes and their combined effect. -/
structure Pending (wt : WriteTree κ ℓ) : Prop where
  visible : ∀ r ∈ wt.allWrites, r.visible = true
  plain : ∀ r ∈ wt.allWrites, r.Plain
  increasing : wt.allWrites.Pairwise fun r s => r.writeId < s.writeId
  last : ∀ r ∈ wt.allWrites, r.writeId ≤ wt.lastWriteId
  visibleWrites : wt.visibleWrites = layered wt.allWrites

theorem pending_init : Pending (init : WriteTree κ ℓ) where
  visible := by simp [init]
  plain := by simp [init]
  increasing := List.Pairwise.nil
  last := by simp [init]
  visibleWrites := rfl

/-- No earlier write reaches the path of `w` from a place strictly above it. -/
def Exposed (pre : List (WriteRecord κ ℓ)) (w : WriteRecord κ ℓ) : Prop :=
  ∀ r ∈ pre, r.containsPath w.path = true → r.path = w.path

section Removal

variable {wt : WriteTree κ ℓ} {pre post : List (WriteRecord κ ℓ)} {w : WriteRecord κ ℓ}

theorem Exposed.uncovered (h : Exposed pre w) : CompoundWrite.Uncovered (layered pre).writeTree w.path := by
  intro q hq hne
  by_contra hv
  obtain ⟨r, hr, e, he, rfl⟩ := valueAtPath_layered hv
  have hpath : r.path = w.path := h r hr (WriteRecord.containsPath_iff.2 ⟨e, he, hq⟩)
  have hle : w.path <+: e.1 := hpath ▸ WriteRecord.path_prefix he
  exact hne (hq.eq_of_length_le hle.length_le)

/-- A covered write has no effect. -/
theorem layered_covered (h : Exposed pre w) (hc : ∃ c ∈ post, c.containsPath w.path = true) :
    layered (pre ++ w :: post) = layered (pre ++ post) := by
  have hcover : ∃ e ∈ post.flatMap WriteRecord.writes, e.1 <+: w.path := by
    obtain ⟨c, hc, hp⟩ := hc
    obtain ⟨e, he, hep⟩ := WriteRecord.containsPath_iff.1 hp
    exact ⟨e, List.mem_flatMap.2 ⟨c, hc, he⟩, hep⟩
  rw [layered_append, layered_append, List.flatMap_cons, CompoundWrite.addWrites_append]
  exact CompoundWrite.addWrites_covered h.uncovered (fun v hv => WriteRecord.path_prefix hv) hcover

/-- A write apart from all others is cut out. -/
theorem removeWrites_layered (h : ∀ r ∈ pre ++ post, ∀ e ∈ r.writes, Apart w.path e.1) :
    CompoundWrite.removeWrites (w.writes.map Prod.fst) (layered (pre ++ w :: post)) = layered (pre ++ post) := by
  have hpre : ∀ q, w.path <+: q ∨ q <+: w.path → (layered pre).writeTree.valueAtPath q = none := by
    intro q hq
    by_contra hv
    obtain ⟨r, hr, e, he, rfl⟩ := valueAtPath_layered hv
    have hap := h r (List.mem_append_left _ hr) e he
    rcases hq with hq | hq
    · exact hap.1 hq
    · exact hap.2 hq
  rw [layered_append, layered_append, List.flatMap_cons, CompoundWrite.addWrites_append,
    CompoundWrite.removeWrites_addWrites_apart, CompoundWrite.removeWrites_addWrites w.writes_apart]
  · intro v hv q hq hne
    exact hpre q (List.prefix_or_prefix_of_prefix (WriteRecord.path_prefix hv) hq)
  · intro v hv q
    exact hpre _ (Or.inl ((WriteRecord.path_prefix hv).trans (List.prefix_append _ _)))
  · intro p hp e he
    obtain ⟨v, hv, rfl⟩ := List.mem_map.1 hp
    obtain ⟨r, hr, he⟩ := List.mem_flatMap.1 he
    have hap := h r (List.mem_append_right _ hr) e he
    have hwv := WriteRecord.path_prefix hv
    refine ⟨fun hve => hap.1 (hwv.trans hve), fun hev => ?_⟩
    rcases List.prefix_or_prefix_of_prefix hwv hev with hc | hc
    · exact hap.1 hc
    · exact hap.2 hc

theorem findIdx?_split {p : WriteRecord κ ℓ → Bool} (hpre : ∀ r ∈ pre, p r = false) (hw : p w = true) :
    (pre ++ w :: post).findIdx? p = some pre.length := by
  induction pre with
  | nil => simp [List.findIdx?_cons, hw]
  | cons r pre ih =>
    obtain ⟨hr, hpre⟩ := List.forall_mem_cons.1 hpre
    simp [List.findIdx?_cons, hr, ih hpre]

theorem eraseIdx_split {rs : List (WriteRecord κ ℓ)} (h : rs = pre ++ w :: post) :
    rs.eraseIdx pre.length = pre ++ post := by
  rw [h, List.eraseIdx_append_of_length_le (Nat.le_refl _), Nat.sub_self]
  rfl

theorem mem_zipIdx_post {i : Nat} {c : WriteRecord κ ℓ} (h : (c, i) ∈ (pre ++ post).zipIdx) (hi : pre.length ≤ i) :
    c ∈ post := by
  rw [List.mem_zipIdx_iff_getElem?, List.getElem?_append_right hi] at h
  exact List.mem_of_getElem? h

theorem exists_mem_zipIdx (pre : List (WriteRecord κ ℓ)) {c : WriteRecord κ ℓ} (h : c ∈ post) :
    ∃ i, (c, i) ∈ (pre ++ post).zipIdx ∧ pre.length ≤ i := by
  obtain ⟨j, hj⟩ := List.mem_iff_getElem?.1 h
  refine ⟨pre.length + j, ?_, Nat.le_add_right _ _⟩
  rw [List.mem_zipIdx_iff_getElem?, List.getElem?_append_right (Nat.le_add_right _ _), Nat.add_sub_cancel_left]
  exact hj

/-- The combined effect after a removal is that of the remaining writes. -/
theorem visibleWrites_removeRecord (h : Pending wt) (hall : wt.allWrites = pre ++ w :: post) (he : Exposed pre w) :
    (wt.removeRecord pre.length w).2.visibleWrites = layered (pre ++ post) := by
  have hrest : wt.allWrites.eraseIdx pre.length = pre ++ post := eraseIdx_split hall
  have hmem : ∀ r ∈ pre ++ post, r ∈ wt.allWrites := by
    intro r hr
    rw [hall]
    rcases List.mem_append.1 hr with hr | hr
    · exact List.mem_append_left _ hr
    · exact List.mem_append_right _ (List.mem_cons_of_mem _ hr)
  have hw : w.visible = true := h.visible w (by simp [hall])
  unfold removeRecord
  rw [if_pos hw]
  simp only [hrest]
  rcases hscan : scanWrites w pre.length (pre ++ post).zipIdx.reverse false with ⟨v, o⟩
  cases v with
  | false =>
    -- a later write covers it
    have hcov := scanWrites_fst.1 (congrArg Prod.fst hscan)
    obtain ⟨⟨c, i⟩, hc, -, hi, hp⟩ := hcov
    have hpost : c ∈ post := mem_zipIdx_post (List.mem_reverse.1 hc) hi
    simp only [h.visibleWrites, hall]
    exact layered_covered he ⟨c, hpost, hp⟩
  | true =>
    cases o with
    | true => exact layerTreeFromWrites_eq _
    | false =>
      have hfst : (scanWrites w pre.length (pre ++ post).zipIdx.reverse false).1 = true := congrArg Prod.fst hscan
      have hsnd : (scanWrites w pre.length (pre ++ post).zipIdx.reverse false).2 = false := congrArg Prod.snd hscan
      have hover : ∀ r ∈ pre ++ post, ¬w.path <+: r.path := by
        intro r hr hp
        have hidx : ∃ i, (r, i) ∈ (pre ++ post).zipIdx := by
          obtain ⟨i, hi⟩ := List.mem_iff_getElem?.1 hr
          exact ⟨i, List.mem_zipIdx_iff_getElem?.2 hi⟩
        obtain ⟨i, hi⟩ := hidx
        have htrue := (scanWrites_snd hfst).2 (Or.inr ⟨(r, i), List.mem_reverse.2 hi, h.visible r (hmem r hr), hp⟩)
        rw [hsnd] at htrue
        cases htrue
      have hcov : ∀ r ∈ pre ++ post, r.containsPath w.path = false := by
        intro r hr
        by_contra hc
        rw [Bool.not_eq_false] at hc
        rcases List.mem_append.1 hr with hpre | hpost
        · -- an earlier one would be at the same path
          exact hover r hr (he r hpre hc ▸ List.prefix_refl _)
        · obtain ⟨i, hi, hle⟩ := exists_mem_zipIdx pre hpost
          have hfalse : (scanWrites w pre.length (pre ++ post).zipIdx.reverse false).1 = false :=
            scanWrites_fst.2 ⟨(r, i), List.mem_reverse.2 hi, h.visible r (hmem r hr), hle, hc⟩
          rw [hfst] at hfalse
          cases hfalse
      have hap : ∀ r ∈ pre ++ post, ∀ e ∈ r.writes, Apart w.path e.1 := fun r hr e hw =>
        (h.plain r (hmem r hr)).apart (hcov r hr) (hover r hr) hw
      have hcut := removeWrites_layered hap
      rw [← hall, ← h.visibleWrites] at hcut
      rw [← hcut]
      cases hd : w.data with
      | overwrite n v => simp [WriteRecord.writes, hd, CompoundWrite.removeWrites]
      | merge merge => simp [WriteRecord.writes, hd, CompoundWrite.removeWrites, List.foldl_map]

theorem allWrites_removeRecord (wt : WriteTree κ ℓ) (index : Nat) (w : WriteRecord κ ℓ) :
    (wt.removeRecord index w).2.allWrites = wt.allWrites.eraseIdx index := by
  unfold removeRecord
  split
  · dsimp only
    rcases scanWrites w index (wt.allWrites.eraseIdx index).zipIdx.reverse false with ⟨_ | _, _ | _⟩
    case true.false => cases w.data <;> rfl
    all_goals rfl
  · rfl

/-- A removal keeps the last id, or takes that of the last record. -/
theorem lastWriteId_removeRecord (wt : WriteTree κ ℓ) (index : Nat) (w : WriteRecord κ ℓ) :
    (wt.removeRecord index w).2.lastWriteId = wt.lastWriteId ∨ (wt.removeRecord index w).2.lastWriteId =
      ((wt.allWrites.eraseIdx index).getLast?.map WriteRecord.writeId).getD (-1) := by
  unfold removeRecord
  split
  · dsimp only
    rcases scanWrites w index (wt.allWrites.eraseIdx index).zipIdx.reverse false with ⟨_ | _, _ | _⟩
    case true.true => exact Or.inr rfl
    case true.false => cases w.data <;> exact Or.inl rfl
    all_goals exact Or.inl rfl
  · exact Or.inl rfl

/-- In increasing records the last has the greatest id. -/
theorem writeId_le_getLast {rs : List (WriteRecord κ ℓ)} (h : rs.Pairwise fun r s => r.writeId < s.writeId)
    {r : WriteRecord κ ℓ} (hr : r ∈ rs) : r.writeId ≤ (rs.getLast?.map WriteRecord.writeId).getD (-1) := by
  obtain ⟨rs, s, rfl⟩ := List.eq_nil_or_concat rs |>.resolve_left (List.ne_nil_of_mem hr)
  rw [List.concat_eq_append] at h hr ⊢
  rw [List.getLast?_concat]
  rcases List.mem_append.1 hr with hr | hr
  · exact ((List.pairwise_append.1 h).2.2 r hr s List.mem_cons_self).le
  · rw [List.mem_singleton.1 hr]
    rfl

/-- **Removing a pending write** that no earlier write reaches from above. -/
theorem Pending.removeWriteId (h : Pending wt) (hall : wt.allWrites = pre ++ w :: post) (he : Exposed pre w) :
    ∃ visible wt', wt.removeWriteId w.writeId = .ok (visible, wt') ∧ wt'.allWrites = pre ++ post ∧ Pending wt' ∧
      (wt'.lastWriteId = -1 ∨ wt'.lastWriteId ≤ wt.lastWriteId) := by
  have hinc := h.increasing
  rw [hall, List.pairwise_append] at hinc
  have hidx : wt.allWrites.findIdx? (fun r => decide (r.writeId = w.writeId)) = some pre.length := by
    rw [hall]
    apply findIdx?_split
    · intro r hr
      simpa using (hinc.2.2 r hr w List.mem_cons_self).ne
    · simp
  have hget : wt.allWrites[pre.length]? = some w := by simp [hall]
  have hrest : wt.allWrites.eraseIdx pre.length = pre ++ post := eraseIdx_split hall
  have hsub : (pre ++ post).Sublist wt.allWrites := hrest ▸ List.eraseIdx_sublist _ _
  have hrem : wt.removeWriteId w.writeId = .ok (wt.removeRecord pre.length w) := by
    simp only [WriteTree.removeWriteId, hidx, hget]
  refine ⟨(wt.removeRecord pre.length w).1, (wt.removeRecord pre.length w).2, hrem, ?_, ?_, ?_⟩
  · rw [allWrites_removeRecord, hrest]
  · have hwrites := allWrites_removeRecord wt pre.length w
    rw [hrest] at hwrites
    constructor
    · exact fun r hr => h.visible r (hsub.subset (hwrites ▸ hr))
    · exact fun r hr => h.plain r (hsub.subset (hwrites ▸ hr))
    · rw [hwrites]
      exact h.increasing.sublist hsub
    · intro r hr
      rw [hwrites] at hr
      rcases lastWriteId_removeRecord wt pre.length w with hl | hl
      · rw [hl]
        exact h.last r (hsub.subset hr)
      · rw [hl, hrest]
        exact writeId_le_getLast (h.increasing.sublist hsub) hr
    · rw [hwrites]
      exact visibleWrites_removeRecord h hall he
  · rcases lastWriteId_removeRecord wt pre.length w with hl | hl
    · exact Or.inr hl.le
    · rw [hl, hrest]
      cases hg : (pre ++ post).getLast? with
      | none => exact Or.inl rfl
      | some r => exact Or.inr (h.last r (hsub.subset (List.mem_of_getLast? hg)))

end Removal

/-- A new record on top of the others. -/
theorem Pending.concat {wt : WriteTree κ ℓ} (h : Pending wt) {r : WriteRecord κ ℓ} (hv : r.visible = true)
    (hp : r.Plain) (hid : wt.lastWriteId < r.writeId) :
    Pending ⟨CompoundWrite.addWrites r.writes wt.visibleWrites, wt.allWrites ++ [r], r.writeId⟩ := by
  have hall : ∀ {P : WriteRecord κ ℓ → Prop}, (∀ s ∈ wt.allWrites, P s) → P r → ∀ s ∈ wt.allWrites ++ [r], P s := by
    intro P hold hr s hs
    rcases List.mem_append.1 hs with hs | hs
    · exact hold s hs
    · rw [List.mem_singleton.1 hs]
      exact hr
  constructor
  · exact hall h.visible hv
  · exact hall h.plain hp
  · refine List.pairwise_append.2 ⟨h.increasing, List.pairwise_singleton _ _, fun s hs t ht => ?_⟩
    rw [List.mem_singleton.1 ht]
    exact (h.last s hs).trans_lt hid
  · exact hall (fun s hs => ((h.last s hs).trans_lt hid).le) le_rfl
  · rw [layered_concat, ← h.visibleWrites]

theorem Pending.addOverwriteAtPath {wt : WriteTree κ ℓ} (h : Pending wt) {id : Int} (hid : wt.lastWriteId < id)
    (p : List κ) (n : Lib.Tree κ ℓ) :
    ∃ wt', wt.addOverwriteAtPath p n id true = .ok wt' ∧ Pending wt' ∧ wt'.lastWriteId = id := by
  refine ⟨_, if_pos hid, ?_, rfl⟩
  exact h.concat (r := ⟨id, p, .overwrite n true⟩) rfl (fun e he => Or.inl (by rw [List.mem_singleton.1 he])) hid

theorem Pending.addMergeAtPath {wt : WriteTree κ ℓ} (h : Pending wt) {id : Int} (hid : wt.lastWriteId < id)
    (p : List κ) {cw : CompoundWrite κ ℓ} (hcw : ∀ e ∈ cw.writes, ∃ k, e.1 = [k]) :
    ∃ wt', wt.addMergeAtPath p cw id = .ok wt' ∧ Pending wt' ∧ wt'.lastWriteId = id := by
  refine ⟨_, if_pos hid, ?_, rfl⟩
  rw [addCompoundWrite_eq]
  refine h.concat (r := ⟨id, p, .merge cw⟩) rfl (fun e he => ?_) hid
  obtain ⟨d, hd, rfl⟩ := List.mem_map.1 he
  obtain ⟨k, hk⟩ := hcw d hd
  exact Or.inr ⟨k, by rw [hk]⟩

end WriteTree

/-! ## Runs -/

/-- What `FRepo` keeps of the writes. -/
structure Repo (κ ℓ : Type) [LinearOrder κ] where
  writeIdCounter : Int
  writeTree : WriteTree κ ℓ

namespace Repo

/-- `set:withNode:`, `update:withNodes:`, and the server's answer to a write. -/
inductive Op (κ ℓ : Type) [LinearOrder κ]
  | set (path : List κ) (node : Lib.Tree κ ℓ)
  | update (path : List κ) (nodes : CompoundWrite κ ℓ)
  | answer (writeId : Int)

def init : Repo κ ℓ := ⟨0, WriteTree.init⟩

/-- An update without any write does nothing. -/
def call (s : Repo κ ℓ) : Op κ ℓ → Except Fault (Repo κ ℓ)
  | .set path node => do
    let writeTree ← s.writeTree.addOverwriteAtPath path node s.writeIdCounter true
    return ⟨s.writeIdCounter + 1, writeTree⟩
  | .update path nodes =>
    if nodes.isEmpty then return s
    else do
      let writeTree ← s.writeTree.addMergeAtPath path nodes s.writeIdCounter
      return ⟨s.writeIdCounter + 1, writeTree⟩
  | .answer writeId => do
    let (_, writeTree) ← s.writeTree.removeWriteId writeId
    return { s with writeTree }

def step (s : Repo κ ℓ) (op : Op κ ℓ) : Option (Repo κ ℓ) := (s.call op).toOption

/-- Updates have plain keys, and an answered write is not reached from above by an earlier one still pending. -/
def Orderly (s : Repo κ ℓ) : Op κ ℓ → Prop
  | .set _ _ => True
  | .update _ nodes => ∀ e ∈ nodes.writes, ∃ k, e.1 = [k]
  | .answer writeId => ∀ pre w post, s.writeTree.allWrites = pre ++ w :: post → w.writeId = writeId →
      WriteTree.Exposed pre w

/-- The writes are pending and their ids are below the counter. -/
structure Inv (s : Repo κ ℓ) : Prop where
  pending : s.writeTree.Pending
  nonneg : 0 ≤ s.writeIdCounter
  fresh : s.writeTree.lastWriteId < s.writeIdCounter

theorem inv_init : Inv (init : Repo κ ℓ) where
  pending := WriteTree.pending_init
  nonneg := Int.le_refl 0
  fresh := Int.negSucc_lt_zero 0

/-- The writes the server can answer. -/
def Answerable (s : Repo κ ℓ) : Op κ ℓ → Prop
  | .answer writeId => ∃ r ∈ s.writeTree.allWrites, r.writeId = writeId
  | _ => True

/-- An orderly call does not raise, and keeps the invariant. -/
theorem call_ok {s : Repo κ ℓ} (h : Inv s) {op : Op κ ℓ} (ho : Orderly s op) (ha : Answerable s op) :
    ∃ s', s.call op = .ok s' ∧ Inv s' := by
  cases op with
  | set p n =>
    obtain ⟨wt, hadd, hp, hl⟩ := h.pending.addOverwriteAtPath h.fresh p n
    refine ⟨⟨s.writeIdCounter + 1, wt⟩, by rw [call, hadd]; rfl, hp, ?_, ?_⟩
    · exact Int.le_add_one h.nonneg
    · rw [hl]
      exact Int.lt_succ _
  | update p nodes =>
    rw [call]
    split
    · exact ⟨s, rfl, h⟩
    · obtain ⟨wt, hadd, hp, hl⟩ := h.pending.addMergeAtPath h.fresh p ho
      refine ⟨⟨s.writeIdCounter + 1, wt⟩, by rw [hadd]; rfl, hp, ?_, ?_⟩
      · exact Int.le_add_one h.nonneg
      · rw [hl]
        exact Int.lt_succ _
  | answer id =>
    obtain ⟨w, hw, rfl⟩ := ha
    obtain ⟨pre, post, hall⟩ := List.append_of_mem hw
    obtain ⟨visible, wt, hrem, -, hp, hl⟩ := h.pending.removeWriteId hall (ho pre w post hall rfl)
    refine ⟨{ s with writeTree := wt }, by rw [call, hrem]; rfl, hp, h.nonneg, ?_⟩
    rcases hl with hl | hl
    · show wt.lastWriteId < s.writeIdCounter
      have := h.nonneg
      omega
    · exact hl.trans_lt h.fresh

/-- A call that returns is one that can be answered. -/
theorem answerable_of_step {s s' : Repo κ ℓ} {op : Op κ ℓ} (hs : step s op = some s') :
    Answerable s op := by
  cases op with
  | set p n => trivial
  | update p nodes => trivial
  | answer id =>
    show ∃ r ∈ s.writeTree.allWrites, r.writeId = id
    by_contra hno
    have hidx : s.writeTree.allWrites.findIdx? (fun r => decide (r.writeId = id)) = none := by
      rw [List.findIdx?_eq_none_iff]
      intro r hr
      simpa using fun he => hno ⟨r, hr, he⟩
    rw [step, call, WriteTree.removeWriteId, hidx] at hs
    cases hs

theorem inv_step {s s' : Repo κ ℓ} (h : Inv s) {op : Op κ ℓ} (ho : Orderly s op) (hs : step s op = some s') :
    Inv s' := by
  obtain ⟨t, ht, hi⟩ := call_ok h ho (answerable_of_step hs)
  rw [step, ht] at hs
  cases hs
  exact hi

theorem inv_run {ops : List (Op κ ℓ)} {s : Repo κ ℓ} (h : run step init ops = some s)
    (ho : Along step Orderly init ops) : Inv s :=
  run_inv_along (I := Inv) (P := Orderly) (fun _ _ _ hi hp hs => inv_step hi hp hs) h ho inv_init

/-- The oldest write can always be answered. -/
theorem orderly_of_oldest {s : Repo κ ℓ} (h : Inv s) {w : WriteRecord κ ℓ} {post : List (WriteRecord κ ℓ)}
    (hall : s.writeTree.allWrites = w :: post) : Orderly s (.answer w.writeId) := by
  intro pre v rest hsplit hid
  cases pre with
  | nil => exact fun r hr => absurd hr List.not_mem_nil
  | cons u pre =>
    -- the ids increase, so the id is that of the first record only
    have hinc := h.pending.increasing
    rw [hsplit, List.cons_append, List.pairwise_cons] at hinc
    have hu : u = w := by
      rw [hall, List.cons_append, List.cons.injEq] at hsplit
      exact hsplit.1.symm
    have hlt := hinc.1 v (by simp)
    rw [hid, hu] at hlt
    exact absurd hlt (lt_irrefl _)

/-- No assertion stands in the way of a call, orderly or not. -/
theorem call_accepted {s : Repo κ ℓ} (h : Inv s) {op : Op κ ℓ} (ha : Answerable s op) : ∃ s', s.call op = .ok s' := by
  cases op with
  | set p n =>
    have hset : Orderly s (.set p n) := trivial
    obtain ⟨s', hs, -⟩ := call_ok h hset ha
    exact ⟨s', hs⟩
  | update p nodes =>
    rw [call]
    split
    · exact ⟨s, rfl⟩
    · rw [WriteTree.addMergeAtPath, if_pos h.fresh]
      exact ⟨_, rfl⟩
  | answer id =>
    obtain ⟨w, hw, rfl⟩ := ha
    cases hidx : s.writeTree.allWrites.findIdx? (fun r => decide (r.writeId = w.writeId)) with
    | none =>
      rw [List.findIdx?_eq_none_iff] at hidx
      exact absurd (hidx w hw) (by simp)
    | some index =>
      obtain ⟨hlt, -⟩ := List.findIdx?_eq_some_iff_getElem.1 hidx
      rw [call, WriteTree.removeWriteId]
      simp only [hidx, List.getElem?_eq_getElem hlt]
      exact ⟨_, rfl⟩

/-- **The shortcuts of `removeWriteId` agree with rebuilding.** After every orderly run the visible writes are the
remaining writes layered from scratch, and no assertion stands in the way of the next call: every write is accepted,
and so is the answer to every pending write, in order or not. -/
theorem visibleWrites_eq {ops : List (Op κ ℓ)} {s : Repo κ ℓ} (h : run step init ops = some s)
    (ho : Along step Orderly init ops) :
    s.writeTree.visibleWrites = WriteTree.layerTreeFromWrites s.writeTree.allWrites WriteTree.defaultFilter [] ∧
    ∀ op, Answerable s op → ∃ s', s.call op = .ok s' := by
  have hi : Inv s := inv_run h ho
  refine ⟨?_, fun op ha => call_accepted hi ha⟩
  rw [WriteTree.layerTreeFromWrites_eq]
  exact hi.pending.visibleWrites

/-- **What the client shows**: after every orderly run, the visible writes applied to the server's data hold the same
data as the pending writes carried out on it one after the other. -/
theorem applyToNode_visibleWrites {ops : List (Op κ ℓ)} {s : Repo κ ℓ} (h : run step init ops = some s)
    (ho : Along step Orderly init ops) {t : Lib.Tree κ ℓ}
    (ht : CompoundWrite.ClearAlong (s.writeTree.allWrites.flatMap WriteRecord.writes) t) :
    Same (s.writeTree.visibleWrites.applyToNode t)
      ((s.writeTree.allWrites.flatMap WriteRecord.writes).foldl (fun n w => n.set w.1 w.2) t) := by
  have hi : Inv s := inv_run h ho
  rw [hi.pending.visibleWrites]
  exact CompoundWrite.applyToNode_addWrites_empty ht

/-- Two updates of one record and the answer to the first. -/
def twoUpdates : List (Op Nat Nat) :=
  [.update [0, 1] (CompoundWrite.emptyWrite.addWrite (.leaf 7) [5]),
    .update [0, 1] (CompoundWrite.emptyWrite.addWrite (.leaf 8) [5]), .answer 0]

theorem plain_field (l : Nat) : ∀ e ∈ (CompoundWrite.emptyWrite.addWrite (.leaf l) [5] : CompoundWrite Nat Nat).writes,
    ∃ k, e.1 = [k] := fun e he => ⟨5, by rw [List.mem_singleton.1 he]⟩

theorem twoUpdates_orderly : Along step Orderly init twoUpdates := by
  refine ⟨plain_field 7, fun s₁ h₁ => ⟨plain_field 8, fun s₂ h₂ => ⟨?_, fun _ _ => trivial⟩⟩⟩
  have hi₁ : Inv s₁ := inv_step inv_init (by exact plain_field 7) h₁
  have hi₂ : Inv s₂ := inv_step hi₁ (by exact plain_field 8) h₂
  cases h₁
  cases h₂
  exact orderly_of_oldest hi₂ rfl

theorem twoUpdates_rebuilt : ∃ s, run step init twoUpdates = some s ∧ s.writeTree.visibleWrites =
    WriteTree.layerTreeFromWrites s.writeTree.allWrites WriteTree.defaultFilter [] := by
  obtain ⟨s, hs⟩ : ∃ s, run step init twoUpdates = some s := ⟨_, rfl⟩
  exact ⟨s, hs, (visibleWrites_eq hs twoUpdates_orderly).1⟩

theorem twoUpdates_replayed : ∃ s, run step init twoUpdates = some s ∧
    Same (s.writeTree.visibleWrites.applyToNode .empty) (.node [(0, .node [(1, .node [(5, .leaf 8)])])]) := by
  obtain ⟨s, hs⟩ : ∃ s, run step init twoUpdates = some s := ⟨_, rfl⟩
  have hclear : CompoundWrite.ClearAlong (s.writeTree.allWrites.flatMap WriteRecord.writes) .empty := by
    cases hs
    exact ⟨fun q _ _ => Lib.Tree.leafAt_empty q, trivial⟩
  have happly := applyToNode_visibleWrites hs twoUpdates_orderly hclear
  cases hs
  exact ⟨_, rfl, happly⟩

end Repo

end ChatApp
