import ArcVcs.Ingress
import ArcVcs.Lib.LostUpdate

/-!
# Concurrent requests on one view

Stage 4 of `post_sync` loads the view, joins the heads of the request and saves the view, and
nothing excludes another request in between.
-/

namespace ArcVcs

/-- A request that has come through stage 3. -/
structure ViewUpdate where
  payload : DeltaPayload
  rewritten : FMap Blake3Hash Blake3Hash

def ViewUpdate.heads (request : ViewUpdate) : Finset Blake3Hash :=
  request.payload.viewHeads.image (remap request.rewritten)

theorem loadHeads_saveHeads {σ : Type} (view : String) (heads : Finset Blake3Hash)
    (disk : ServerDisk σ) : loadHeads (saveHeads view heads disk) view = heads := by
  rw [loadHeads, saveHeads, FMap.lookup_insert_eq, if_pos rfl, Option.getD_some]

/-- The heads of a view as `View::load` and `View::save` access them. -/
def viewCell (σ : Type) (view : String) :
    LostUpdate.Cell (ServerDisk σ) (Finset Blake3Hash) where
  get disk := loadHeads disk view
  put := saveHeads view
  get_put := loadHeads_saveHeads view

section Requests

variable {σ ι : Type} [DecidableEq ι] (view : String) (requests : ι → ViewUpdate)

abbrev SyncStep := LostUpdate.Step (viewCell σ view) fun i => (requests i).heads

abbrev HeadsKept := LostUpdate.Kept (viewCell σ view) fun i => (requests i).heads

/-- A request that saves has loaded, or contributes itself, the heads of every request that has
returned. -/
abbrev LoadedReturned := LostUpdate.UpToDate (S := ServerDisk σ) fun i => (requests i).heads

/-- All requests are about to load the view. -/
def beforeUpdates (disk : ServerDisk σ) : LostUpdate.System (ServerDisk σ) ι (Finset Blake3Hash) :=
  ⟨disk, fun _ => .idle⟩

omit [DecidableEq ι] in
theorem headsKept_beforeUpdates (disk : ServerDisk σ) :
    HeadsKept view requests (beforeUpdates disk) := by
  rintro i ⟨x, hx⟩
  cases hx

theorem updateView_eq_trace (i : ι) (disk : ServerDisk σ) :
    ∃ s, Trace (SyncStep view requests) (beforeUpdates disk) [.load i, .save i] s
      ∧ ∃ heads, s.phase i = .done heads
        ∧ updateView view (requests i).payload (requests i).rewritten disk
          = some (.ok ⟨heads, (requests i).rewritten⟩, s.shared) := by
  let loaded : LostUpdate.System (ServerDisk σ) ι (Finset Blake3Hash) :=
    ⟨disk, Function.update (fun _ => .idle) i (.loaded (loadHeads disk view))⟩
  have hload : SyncStep view requests (beforeUpdates disk) (.load i) loaded :=
    LostUpdate.step_load_iff.mpr ⟨rfl, rfl⟩
  have hphase : loaded.phase i = .loaded (loadHeads disk view) := by simp [loaded]
  refine ⟨_, .snoc (.snoc (.nil _) hload) (LostUpdate.step_save_iff.mpr ⟨_, hphase, rfl⟩), ?_⟩
  exact ⟨loadHeads disk view ∪ (requests i).heads, by simp, rfl⟩

/-- **Concurrent requests keep all heads iff no save replaces heads that it has not seen.** -/
theorem syncs_keep_heads_iff (disk : ServerDisk σ)
    (events : List (LostUpdate.Event ι))
    (s : LostUpdate.System (ServerDisk σ) ι (Finset Blake3Hash)) :
    (Trace (fun s e s' => SyncStep view requests s e s' ∧ HeadsKept view requests s')
        (beforeUpdates disk) events s
      ↔ Trace (fun s e s' => SyncStep view requests s e s' ∧ LoadedReturned requests s e)
        (beforeUpdates disk) events s)
    ∧ (Trace (fun s e s' => SyncStep view requests s e s' ∧ LoadedReturned requests s e)
          (beforeUpdates disk) events s →
        (∀ i, s.Done i) → ∀ i, (requests i).heads ⊆ loadHeads s.shared view) := by
  have hstart := headsKept_beforeUpdates view requests disk
  have hiff : Trace (fun s e s' => SyncStep view requests s e s' ∧ HeadsKept view requests s')
        (beforeUpdates disk) events s
      ↔ Trace (fun s e s' => SyncStep view requests s e s' ∧ LoadedReturned requests s e)
        (beforeUpdates disk) events s :=
    LostUpdate.kept_trace_iff hstart
  exact ⟨hiff, fun htrace hdone i => (hiff.mpr htrace).last hstart i (hdone i)⟩

end Requests

/-- Two requests that load before either saves. The heads of the first are lost. -/
theorem sync_loses_heads :
    let requests : Bool → ViewUpdate
      | false => ⟨⟨[], {1}⟩, ∅⟩
      | true => ⟨⟨[], {2}⟩, ∅⟩
    let disk : ServerDisk Unit := ⟨(), ∅, ∅⟩
    ∃ s, Trace (SyncStep "main" requests) (beforeUpdates disk)
        [.load false, .load true, .save false, .save true] s
      ∧ (∀ i, s.Done i) ∧ ¬ (requests false).heads ⊆ loadHeads s.shared "main" := by
  intro requests disk
  refine ⟨_, Trace.of_foldlM rfl, fun i => ?_, by decide⟩
  cases i <;> exact ⟨_, rfl⟩

end ArcVcs
