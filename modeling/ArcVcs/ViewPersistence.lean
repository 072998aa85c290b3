import ArcVcs.NativeServer
import ArcVcs.ViewOverlay

/-!
# Heads that are persisted view by view

`persist_view_heads` checks and saves one view of a request after the other. It returns at the first
name that is not valid and at the first save that fails, and what it saved before stays.
-/

namespace ArcVcs

/-- The files of the views by their paths below `views`. One that does not decode is `none`. A view
is saved under its name. -/
structure ViewFiles where
  files : FMap String (Option View)
  named : ∀ path view, files.lookup path = some (some view) → view.name = path

/-- How `View::save` fails: before the lock file is renamed to the view, or in the sync of the
directory after that. -/
inductive ViewSaveFault where
  | unpublished (details : String)
  | unsynced (details : String)
deriving DecidableEq

inductive PersistError where
  | invalidViewName
  | save (viewName details : String)
deriving DecidableEq

/-- A view of a request with its head, and how its save fails when it does. -/
structure SentHead where
  viewName : String
  head : Blake3Hash
  fault : Option ViewSaveFault
deriving DecidableEq

/-- The views of a request, in the order in which the map iterates. -/
structure SentHeads where
  entries : List SentHead
  nodup : (entries.map SentHead.viewName).Nodup

namespace ViewFiles

@[ext] theorem ext {st st' : ViewFiles} (h : st.files = st'.files) : st = st' := by
  cases st
  cases st'
  cases h
  rfl

def empty : ViewFiles where
  files := ∅
  named path view h := by cases h

/-- `View::load`, with `none` for any error. -/
def load (st : ViewFiles) (viewName : String) : Option View := (st.files.lookup viewName).join

def publish (st : ViewFiles) (view : View) : ViewFiles where
  files := st.files.insert view.name (some view)
  named path view' h := by
    rw [FMap.lookup_insert_eq] at h
    split_ifs at h with hpath
    · cases h
      exact hpath.symm
    · exact st.named path view' h

/-- `View::save`. -/
def save (fault : Option ViewSaveFault) (view : View) (st : ViewFiles) :
    Except String Unit × ViewFiles :=
  match fault with
  | none => (.ok (), st.publish view)
  | some (.unpublished details) => (.error details, st)
  | some (.unsynced details) => (.error details, st.publish view)

def persistViewHeads : List SentHead → ViewFiles → Except PersistError Unit × ViewFiles
  | [], st => (.ok (), st)
  | sent :: viewHeads, st =>
      if isValidViewName sent.viewName = false then (.error .invalidViewName, st)
      else
        let view : View :=
          match st.load sent.viewName with
          | some existing => ⟨existing.name, {sent.head}⟩
          | none => ⟨sent.viewName, {sent.head}⟩
        match st.save sent.fault view with
        | (.error details, st') => (.error (.save sent.viewName details), st')
        | (.ok _, st') => persistViewHeads viewHeads st'

end ViewFiles

/-! ## What an entry does -/

namespace SentHead

def view (sent : SentHead) : View := ⟨sent.viewName, {sent.head}⟩

/-- The name is valid and the save does not fail. -/
def Passes (sent : SentHead) : Prop := isValidViewName sent.viewName = true ∧ sent.fault = none

/-- The name is valid and the save does not fail before the view is renamed to its place. -/
def Publishes (sent : SentHead) : Prop :=
  isValidViewName sent.viewName = true ∧ ∀ details, sent.fault ≠ some (.unpublished details)

instance (sent : SentHead) : Decidable sent.Passes := inferInstanceAs (Decidable (_ ∧ _))

theorem Passes.publishes {sent : SentHead} (h : sent.Passes) : sent.Publishes :=
  ⟨h.1, fun details heq => by cases h.2.symm.trans heq⟩

end SentHead

namespace ViewFiles

/-- The view has the head of the entry and no other one. -/
def Holds (st : ViewFiles) (sent : SentHead) : Prop :=
  st.files.lookup sent.viewName = some (some sent.view)

/-- The entries that are published: those before the first one that does not pass, and that one when
its save fails after the rename. -/
def published : List SentHead → List SentHead
  | [] => []
  | sent :: viewHeads =>
      if sent.Passes then sent :: published viewHeads
      else
        match isValidViewName sent.viewName, sent.fault with
        | true, some (.unsynced _) => [sent]
        | _, _ => []

def publishAll (st : ViewFiles) (viewHeads : List SentHead) : ViewFiles :=
  viewHeads.foldl (fun st sent => st.publish sent.view) st

variable {st : ViewFiles} {sent : SentHead} {viewHeads : List SentHead}

theorem view_of_load (st : ViewFiles) (sent : SentHead) :
    (match st.load sent.viewName with
      | some existing => (⟨existing.name, {sent.head}⟩ : View)
      | none => ⟨sent.viewName, {sent.head}⟩) = sent.view := by
  cases hload : st.load sent.viewName with
  | none => rfl
  | some existing =>
      have hname := st.named _ _ (Option.join_eq_some_iff.mp hload)
      rw [SentHead.view, ← hname]

theorem persistViewHeads_spec (viewHeads : List SentHead) (st : ViewFiles) :
    (persistViewHeads viewHeads st).2 = st.publishAll (published viewHeads)
      ∧ ((persistViewHeads viewHeads st).1 = .ok () ↔ ∀ sent ∈ viewHeads, sent.Passes) := by
  induction viewHeads generalizing st with
  | nil => exact ⟨rfl, iff_of_true rfl fun sent h => by cases h⟩
  | cons sent viewHeads ih =>
      obtain ⟨hfiles, hok⟩ := ih (st.publish sent.view)
      rw [persistViewHeads, view_of_load, published, List.forall_mem_cons]
      cases hvalid : isValidViewName sent.viewName with
      | false => simp [SentHead.Passes, hvalid, publishAll]
      | true =>
          rcases hfault : sent.fault with _ | details | details
          · have hpasses : sent.Passes := ⟨hvalid, hfault⟩
            simp only [save, hpasses, if_true, true_and, Bool.true_eq_false, if_false]
            exact ⟨hfiles, hok⟩
          · simp [SentHead.Passes, hfault, save, publishAll]
          · simp [SentHead.Passes, hfault, save, publishAll]

theorem published_sublist (viewHeads : List SentHead) :
    (published viewHeads).Sublist viewHeads := by
  induction viewHeads with
  | nil => exact List.Sublist.slnil
  | cons sent viewHeads ih =>
      rw [published]
      split_ifs
      · exact ih.cons_cons sent
      · split
        · exact (List.nil_sublist _).cons_cons sent
        · exact List.nil_sublist _

theorem publishes_of_mem_published (h : sent ∈ published viewHeads) : sent.Publishes := by
  induction viewHeads with
  | nil => cases h
  | cons other viewHeads ih =>
      rw [published] at h
      split_ifs at h with hpasses
      · rcases List.mem_cons.mp h with rfl | h
        · exact hpasses.publishes
        · exact ih h
      · split at h
        · rename_i details hvalid hfault
          cases List.mem_singleton.mp h
          exact ⟨hvalid, fun details' heq => by cases hfault.symm.trans heq⟩
        · cases h

theorem published_of_passes (h : ∀ sent ∈ viewHeads, sent.Passes) :
    published viewHeads = viewHeads := by
  induction viewHeads with
  | nil => rfl
  | cons sent viewHeads ih =>
      obtain ⟨hsent, hrest⟩ := List.forall_mem_cons.mp h
      rw [published, if_pos hsent, ih hrest]

theorem mem_published_cons (h : sent.Publishes) : sent ∈ published (sent :: viewHeads) := by
  rw [published]
  split_ifs with hpasses
  · exact List.mem_cons_self
  · rcases hfault : sent.fault with _ | details | details
    · exact absurd ⟨h.1, hfault⟩ hpasses
    · exact absurd hfault (h.2 details)
    · rw [h.1]
      exact List.mem_cons_self

theorem files_publishAll (st : ViewFiles) (viewHeads : List SentHead) :
    (st.publishAll viewHeads).files
      = st.files.insertAll (viewHeads.map fun sent => (sent.viewName, some sent.view)) := by
  induction viewHeads generalizing st with
  | nil => rfl
  | cons sent viewHeads ih => exact ih (st.publish sent.view)

theorem holds_publishAll (st : ViewFiles) (hnodup : (viewHeads.map SentHead.viewName).Nodup)
    (h : sent ∈ viewHeads) : (st.publishAll viewHeads).Holds sent := by
  have hkey : sent.viewName
      ∈ (viewHeads.map fun sent => (sent.viewName, some sent.view)).map Prod.fst := by
    rw [List.map_map]
    exact List.mem_map_of_mem h
  obtain ⟨e, he, hname, hlookup⟩ := FMap.lookup_insertAll_of_mem st.files _ hkey
  obtain ⟨other, hother, rfl⟩ := List.mem_map.mp he
  rw [Holds, files_publishAll, hlookup, List.inj_on_of_nodup_map hnodup hother h hname]

theorem publishAll_eq_self (h : ∀ sent ∈ viewHeads, st.Holds sent) :
    st.publishAll viewHeads = st := by
  induction viewHeads with
  | nil => rfl
  | cons sent viewHeads ih =>
      obtain ⟨hsent, hrest⟩ := List.forall_mem_cons.mp h
      have hpublish : st.publish sent.view = st := by
        refine ViewFiles.ext (Finmap.ext_lookup fun path => ?_)
        rw [publish, FMap.lookup_insert_eq]
        split_ifs with hpath
        · rw [hpath]
          exact hsent.symm
        · rfl
      exact (congrArg (publishAll · viewHeads) hpublish).trans (ih hrest)

/-! ## The files and the views of the server -/

def Abstracts (st : ViewFiles) (views : FMap String (Finset Blake3Hash)) : Prop :=
  ∀ viewName, views.lookup viewName = (st.load viewName).map View.heads

theorem Abstracts.publish {views : FMap String (Finset Blake3Hash)} (h : st.Abstracts views)
    (view : View) : (st.publish view).Abstracts (views.insert view.name view.heads) := by
  intro viewName
  rw [load, ViewFiles.publish, FMap.lookup_insert_eq, FMap.lookup_insert_eq]
  split_ifs
  · rfl
  · exact h viewName

theorem persistViewHeads_simulates (entries : List (String × Blake3Hash)) (server : NativeServer)
    (st : ViewFiles) (h : st.Abstracts server.views) :
    ∃ r server', ArcVcs.persistViewHeads entries server = some (r, server')
      ∧ (persistViewHeads (entries.map fun e => ⟨e.1, e.2, none⟩) st).2.Abstracts server'.views
      ∧ ((persistViewHeads (entries.map fun e => ⟨e.1, e.2, none⟩) st).1 = .ok ()
        ↔ r = .ok ()) := by
  induction entries generalizing server st with
  | nil => exact ⟨.ok (), server, rfl, h, iff_of_true rfl rfl⟩
  | cons entry entries ih =>
      obtain ⟨viewName, head⟩ := entry
      rw [ArcVcs.persistViewHeads, List.map_cons, persistViewHeads, view_of_load]
      dsimp only
      split_ifs with hvalid
      · exact ⟨.error .invalidViewName, server, rfl, h, by simp⟩
      · obtain ⟨r, server', hrun, habstracts, hok⟩ :=
          ih { server with views := server.views.insert viewName {head} }
            (st.publish ⟨viewName, {head}⟩) (h.publish ⟨viewName, {head}⟩)
        exact ⟨r, server', hrun, habstracts, hok⟩

theorem persistViewHeads_simulates_first :
    ∃ r server', ArcVcs.persistViewHeads [("main", 1), ("../x", 2)] ⟨∅, ∅, none⟩ = some (r, server')
      ∧ (persistViewHeads [⟨"main", 1, none⟩, ⟨"../x", 2, none⟩]
        ⟨∅, fun _ _ h => by simp at h⟩).2.Abstracts
        server'.views
      ∧ ((persistViewHeads [⟨"main", 1, none⟩, ⟨"../x", 2, none⟩]
        ⟨∅, fun _ _ h => by simp at h⟩).1 = .ok () ↔ r = .ok ()) :=
  persistViewHeads_simulates [("main", 1), ("../x", 2)] ⟨∅, ∅, none⟩ _ fun _ => rfl

/-! ## All or nothing -/

/-- After an error every stored view is as before, and otherwise each view has its new head. -/
def AllOrNothing (viewHeads : List SentHead) (st : ViewFiles) : Prop :=
  (∀ e st', persistViewHeads viewHeads st = (.error e, st') → st' = st)
    ∧ ∀ st', persistViewHeads viewHeads st = (.ok (), st') → ∀ sent ∈ viewHeads, st'.Holds sent

theorem allOrNothing_iff (viewHeads : SentHeads) (st : ViewFiles) :
    AllOrNothing viewHeads.entries st ↔ (∀ sent ∈ viewHeads.entries, sent.Passes)
      ∨ ∀ sent ∈ published viewHeads.entries, st.Holds sent := by
  obtain ⟨hfiles, hok⟩ := persistViewHeads_spec viewHeads.entries st
  rcases hrun : persistViewHeads viewHeads.entries st with ⟨e | _, st'⟩ <;> rw [hrun] at hfiles hok
  · have hfails : ¬ ∀ sent ∈ viewHeads.entries, sent.Passes := fun h => by cases hok.mpr h
    rw [or_iff_right hfails]
    constructor
    · intro h sent hsent
      have hnodup := viewHeads.nodup.sublist ((published_sublist viewHeads.entries).map _)
      have hholds := holds_publishAll st hnodup hsent
      rwa [← hfiles, h.1 e st' hrun] at hholds
    · intro h
      refine ⟨fun e' st'' heq => ?_, fun st'' heq => ?_⟩ <;> cases hrun.symm.trans heq
      exact hfiles.trans (publishAll_eq_self h)
  · have hpasses := hok.mp rfl
    refine iff_of_true ⟨fun e' st'' heq => ?_, fun st'' heq sent hsent => ?_⟩ (Or.inl hpasses)
      <;> cases hrun.symm.trans heq
    rw [published_of_passes hpasses] at hfiles
    have hholds := holds_publishAll st viewHeads.nodup hsent
    rwa [← hfiles] at hholds

/-- A request is handled all or nothing when all its entries pass, or when what is published holds
already: in one order of the map, the entries up to the first one that does not pass, and in every
order, all entries that could be published. -/
theorem persists_all_or_nothing_iff (viewHeads : SentHeads) (st : ViewFiles) :
    (AllOrNothing viewHeads.entries st ↔ (∀ sent ∈ viewHeads.entries, sent.Passes)
        ∨ ∀ sent ∈ published viewHeads.entries, st.Holds sent)
      ∧ ((∀ order : SentHeads, order.entries.Perm viewHeads.entries →
          AllOrNothing order.entries st) ↔ (∀ sent ∈ viewHeads.entries, sent.Passes)
        ∨ ∀ sent ∈ viewHeads.entries, sent.Publishes → st.Holds sent) := by
  refine ⟨allOrNothing_iff viewHeads st, fun h => ?_, fun h order hperm => ?_⟩
  · refine or_iff_not_imp_left.mpr fun hfails sent hsent hpublishes => ?_
    -- the entry comes first, and one that does not pass is still in the request
    have hperm := (List.perm_cons_erase hsent).symm
    have hnodup : ((sent :: viewHeads.entries.erase sent).map SentHead.viewName).Nodup :=
      (hperm.map _).nodup_iff.mpr viewHeads.nodup
    have hfirst := (allOrNothing_iff ⟨_, hnodup⟩ st).mp (h ⟨_, hnodup⟩ hperm)
    rcases hfirst with hpasses | hholds
    · exact absurd (fun other hother => hpasses other (hperm.mem_iff.mpr hother)) hfails
    · exact hholds sent (mem_published_cons hpublishes)
  · rw [allOrNothing_iff]
    refine h.imp (fun hpasses sent hsent => hpasses sent (hperm.mem_iff.mp hsent))
      fun hholds sent hsent => ?_
    exact hholds sent (hperm.mem_iff.mp ((published_sublist order.entries).subset hsent))
      (publishes_of_mem_published hsent)

/-- A head for `main` and one for a name that is not valid. -/
def escapingHeads : SentHeads where
  entries := [⟨"main", Blake3Hash.ofNat 1, none⟩, ⟨"../main", Blake3Hash.ofNat 1, none⟩]
  nodup := by decide

/-- The request is refused, and `main` has been written. -/
theorem refused_request_writes_main :
    (persistViewHeads escapingHeads.entries empty).1 = .error .invalidViewName
      ∧ (persistViewHeads escapingHeads.entries empty).2.load "main"
        = some ⟨"main", {Blake3Hash.ofNat 1}⟩
      ∧ ¬ ∀ (viewHeads : SentHeads) (st : ViewFiles), AllOrNothing viewHeads.entries st := by
  have hmain : isValidViewName "main" = true := by decide
  have hother : isValidViewName "../main" = false := by decide
  have hrun : persistViewHeads escapingHeads.entries empty
      = (.error .invalidViewName, empty.publish ⟨"main", {Blake3Hash.ofNat 1}⟩) := by
    simp [persistViewHeads, escapingHeads, hmain, hother, load, empty, save]
  have hload : (empty.publish ⟨"main", {Blake3Hash.ofNat 1}⟩).load "main"
      = some ⟨"main", {Blake3Hash.ofNat 1}⟩ := by
    rw [load, publish, FMap.lookup_insert_eq, if_pos rfl]
    rfl
  refine ⟨by rw [hrun], by rw [hrun]; exact hload, fun h => ?_⟩
  have hsame := (h escapingHeads empty).1 _ _ hrun
  rw [hsame] at hload
  cases hload

end ViewFiles

end ArcVcs
