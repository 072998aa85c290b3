import ArcVcs.Lib.Trace
import ArcVcs.NativePull
import ArcVcs.NativeServer

/-!
# Sequences of connections

What the connections of a native server leave of the heads that it accepted. A stored record is
never replaced, so an ancestor stays an ancestor, but the heads of a view are replaced by
whatever head comes last.
-/

namespace ArcVcs

namespace ObjectStore

def SubStore (store store' : ObjectStore) : Prop :=
  ∀ id bytes, store.lookup id = some bytes → store'.lookup id = some bytes

theorem SubStore.refl (store : ObjectStore) : store.SubStore store := fun _ _ h => h

theorem SubStore.trans {store₁ store₂ store₃ : ObjectStore} (h₁ : store₁.SubStore store₂)
    (h₂ : store₂.SubStore store₃) : store₁.SubStore store₃ :=
  fun id bytes h => h₂ id bytes (h₁ id bytes h)

theorem subStore_writeChangeBytes (store : ObjectStore) (id : Blake3Hash) (bytes : Bytes) :
    store.SubStore (store.writeChangeBytes id bytes) :=
  fun _ _ h => FMap.lookup_putOnce_of_some store id bytes h

theorem SubStore.reaches [Serde] {store store' : ObjectStore} (h : store.SubStore store')
    {x a : Blake3Hash} (hreach : store.Reaches x a) : store'.Reaches x a := by
  refine Relation.ReflTransGen.mono (fun y d hyd => ?_) _ _ hreach
  obtain ⟨c, hc, hd⟩ := hyd
  obtain ⟨bytes, hlook, hdecode⟩ := readChange_eq_ok_iff.mp hc
  exact ⟨c, readChange_eq_ok_iff.mpr ⟨bytes, h _ _ hlook, hdecode⟩, hd⟩

end ObjectStore

/-! ## What one connection does -/

def AddsRecords {α : Type} (p : Program NativeServer ConnectionError α) : Prop :=
  ∀ server, ∃ r server', p server = some (r, server') ∧ server'.views = server.views
    ∧ server.store.SubStore server'.store

theorem addsRecords_of_eq {α : Type} {p : Program NativeServer ConnectionError α}
    (h : ∀ server, ∃ r, p server = some (r, server)) : AddsRecords p := by
  intro server
  obtain ⟨r, hr⟩ := h server
  exact ⟨r, server, hr, rfl, .refl _⟩

theorem addsRecords_pure {α : Type} (a : α) :
    AddsRecords (pure a : Program NativeServer ConnectionError α) :=
  addsRecords_of_eq fun _ => ⟨.ok a, rfl⟩

theorem addsRecords_throw {α : Type} (e : ConnectionError) :
    AddsRecords (.throw e : Program NativeServer ConnectionError α) :=
  addsRecords_of_eq fun _ => ⟨.error e, rfl⟩

theorem AddsRecords.bind {α β : Type} {p : Program NativeServer ConnectionError α}
    {f : α → Program NativeServer ConnectionError β} (hp : AddsRecords p)
    (hf : ∀ a, AddsRecords (f a)) : AddsRecords (p >>= f) := by
  intro server
  obtain ⟨r, server₁, hrun, hviews, hsub⟩ := hp server
  rw [Program.bind_run, hrun]
  cases r with
  | error e => exact ⟨.error e, server₁, rfl, hviews, hsub⟩
  | ok a =>
      obtain ⟨r', server₂, hrun', hviews', hsub'⟩ := hf a server₁
      exact ⟨r', server₂, hrun', hviews'.trans hviews, hsub.trans hsub'⟩

theorem addsRecords_get : AddsRecords (.get : Program NativeServer ConnectionError NativeServer) :=
  addsRecords_of_eq fun server => ⟨.ok server, rfl⟩

/-- The entries up to the first name that is not valid. -/
def writtenHeads (entries : List (String × Blake3Hash)) : List (String × Blake3Hash) :=
  entries.takeWhile fun entry => isValidViewName entry.1

def replaceHeads (views : FMap String (Finset Blake3Hash))
    (entries : List (String × Blake3Hash)) : FMap String (Finset Blake3Hash) :=
  FMap.insertAll views (entries.map fun entry => (entry.1, {entry.2}))

theorem persistViewHeads_run (entries : List (String × Blake3Hash)) (server : NativeServer) :
    ∃ r, persistViewHeads entries server
        = some (r, { server with views := replaceHeads server.views (writtenHeads entries) })
      ∧ (r = .ok () → writtenHeads entries = entries) := by
  induction entries generalizing server with
  | nil => exact ⟨.ok (), rfl, fun _ => rfl⟩
  | cons entry entries ih =>
      obtain ⟨viewName, head⟩ := entry
      rw [persistViewHeads]
      split_ifs with hvalid
      · have hnone : writtenHeads ((viewName, head) :: entries) = [] := by
          rw [writtenHeads, List.takeWhile_cons_of_neg (by simp [hvalid])]
        rw [hnone]
        exact ⟨.error .invalidViewName, rfl, by simp⟩
      · have hcons : writtenHeads ((viewName, head) :: entries)
            = (viewName, head) :: writtenHeads entries := by
          rw [writtenHeads, List.takeWhile_cons_of_pos (by simpa using hvalid), writtenHeads]
        obtain ⟨r, hrun, hall⟩ :=
          ih { server with views := server.views.insert viewName {head} }
        refine ⟨r, ?_, fun hr => by rw [hcons, hall hr]⟩
        rw [hcons]
        exact hrun

section Admission

variable [Crypto] [Ed25519] [Serde]

theorem addsRecords_ingestFrames (allowKeepalive : Bool) (frames : List PayloadFrame)
    (frameCount totalBytes : ℕ) :
    AddsRecords (ingestFrames allowKeepalive frames frameCount totalBytes) := by
  induction frames generalizing frameCount totalBytes with
  | nil => exact addsRecords_throw _
  | cons frame frames ih =>
      cases frame with
      | other => exact addsRecords_throw _
      | keepAlive =>
          rw [ingestFrames]
          split_ifs
          · exact ih _ _
          · exact addsRecords_throw _
      | payload raw =>
          cases raw with
          | nil => exact addsRecords_pure _
          | cons byte raw =>
              rw [ingestFrames]
              · split_ifs
                · exact addsRecords_throw _
                · exact addsRecords_throw _
                · cases Serde.deserialize (byte :: raw) with
                  | none => exact addsRecords_throw _
                  | some change =>
                      dsimp only
                      split_ifs
                      · exact addsRecords_throw _
                      · refine .bind (fun server => ?_) fun _ => ih _ _
                        exact ⟨.ok (), _, rfl, rfl, ObjectStore.subStore_writeChangeBytes _ _ _⟩
              · simp

theorem addsRecords_ingestPayloadStream (stream : List PayloadFrame)
    (requiredChanges : Finset Blake3Hash) (allowKeepalive : Bool) :
    AddsRecords (ingestPayloadStream stream requiredChanges allowKeepalive) := by
  refine .bind (addsRecords_ingestFrames _ _ _ _) fun _ => .bind addsRecords_get fun server => ?_
  split_ifs
  · exact addsRecords_pure _
  · exact addsRecords_throw _

omit [Crypto] [Ed25519] [Serde] in
theorem addsRecords_maybeStreamRequestedBlocks (requested : Option (List Blake3Hash)) :
    AddsRecords (maybeStreamRequestedBlocks requested) := by
  cases requested with
  | none => exact addsRecords_pure _
  | some requested =>
      refine .bind addsRecords_get fun server => ?_
      cases requested.find? fun id => decide (id ∉ server.store.keys) with
      | none => exact addsRecords_pure _
      | some id => exact addsRecords_throw _

theorem addsRecords_ensureClosure (heads : List Blake3Hash) :
    AddsRecords (ensureClosure heads) := by
  refine addsRecords_of_eq fun server => ?_
  obtain ⟨out, hout⟩ := server.store.exists_ensureDependencyClosurePresent heads
  rw [ensureClosure, hout]
  cases out with
  | error e => exact ⟨_, rfl⟩
  | ok seen => exact ⟨_, rfl⟩

theorem addsRecords_exchange (connection : Connection) : AddsRecords (exchange connection) := by
  rw [exchange]
  cases connection.request with
  | none => exact addsRecords_throw _
  | some request =>
      refine .bind addsRecords_get fun server => ?_
      dsimp only
      have hread : AddsRecords (do
          maybeStreamRequestedBlocks connection.requested
          ensureClosure (request.viewHeads.entries.map Prod.snd)) :=
        (addsRecords_maybeStreamRequestedBlocks _).bind fun _ => addsRecords_ensureClosure _
      split_ifs
      · exact (addsRecords_ingestPayloadStream _ _ _).bind fun _ =>
          hread.bind fun _ => addsRecords_pure _
      · exact (addsRecords_ingestPayloadStream _ _ _).bind fun _ => addsRecords_pure _
      · exact hread.bind fun _ => addsRecords_pure _
      · exact addsRecords_pure _

end Admission

/-! ## Accepted heads -/

/-- A server with the view heads that it has accepted so far. -/
structure ServerHistory where
  server : NativeServer
  accepted : List (String × Blake3Hash)

def NativeServer.heads (server : NativeServer) (view : String) : Finset Blake3Hash :=
  (server.views.lookup view).getD ∅

theorem writtenHeads_nodup (viewHeads : ViewHeads) :
    ((writtenHeads viewHeads.entries).map Prod.fst).Nodup :=
  viewHeads.nodup.sublist ((List.takeWhile_sublist _).map _)

theorem lookup_replaceHeads_of_mem {views : FMap String (Finset Blake3Hash)}
    {entries : List (String × Blake3Hash)} (hnodup : (entries.map Prod.fst).Nodup)
    {entry : String × Blake3Hash} (hentry : entry ∈ entries) :
    (replaceHeads views entries).lookup entry.1 = some {entry.2} := by
  obtain ⟨e, he, hfst, hlook⟩ := FMap.lookup_insertAll_of_mem views
    (entries.map fun entry => (entry.1, ({entry.2} : Finset Blake3Hash))) (k := entry.1)
    (by simpa using ⟨entry.2, hentry⟩)
  obtain ⟨b, hb, rfl⟩ := List.mem_map.mp he
  obtain rfl : b = entry := List.inj_on_of_nodup_map hnodup hb hentry hfst
  exact hlook

theorem lookup_replaceHeads_of_notMem {views : FMap String (Finset Blake3Hash)}
    {entries : List (String × Blake3Hash)} {view : String} (h : view ∉ entries.map Prod.fst) :
    (replaceHeads views entries).lookup view = views.lookup view :=
  FMap.lookup_insertAll_of_notMem _ _ (by simpa [Function.comp_def] using h)

section Histories

variable [Crypto] [Ed25519] [Serde]

/-- One connection. It is acknowledged when it ends without an error and with status `0`. -/
def ServerHistory.next (history : ServerHistory) (connection : Connection) :
    Option ServerHistory :=
  match handleConnection connection history.server with
  | none => none
  | some (.error _, server) => some ⟨server, history.accepted⟩
  | some (.ok (response, viewHeads), server) =>
      some ⟨server, if response.status = 0 then history.accepted ++ viewHeads.entries
        else history.accepted⟩

/-- Every accepted head is a head of its view or an ancestor of one. -/
def AcceptedKept (history : ServerHistory) : Prop :=
  ∀ entry ∈ history.accepted, ∃ head ∈ history.server.heads entry.1,
    history.server.store.Reaches head entry.2

/-- The heads that are about to be persisted descend from the heads accepted for their views. -/
def FastForward (history : ServerHistory) (connection : Connection) : Prop :=
  ∀ response viewHeads server,
    exchange connection history.server = some (.ok (response, viewHeads), server) →
    response.status = 0 → ∀ entry ∈ writtenHeads viewHeads.entries,
    ∀ accepted ∈ history.accepted, accepted.1 = entry.1 → server.store.Reaches entry.2 accepted.2

theorem ServerHistory.next_cases {history history' : ServerHistory} {connection : Connection}
    (h : history.next connection = some history') :
    (∃ r server, exchange connection history.server = some (r, server)
        ∧ (∀ response viewHeads, r = .ok (response, viewHeads) → response.status ≠ 0)
        ∧ history' = ⟨server, history.accepted⟩)
      ∨ ∃ response viewHeads server accepted,
        exchange connection history.server = some (.ok (response, viewHeads), server)
        ∧ response.status = 0
        ∧ (accepted = [] ∨ accepted = viewHeads.entries
          ∧ writtenHeads viewHeads.entries = viewHeads.entries)
        ∧ history' = ⟨{ server with
            views := replaceHeads server.views (writtenHeads viewHeads.entries) },
          history.accepted ++ accepted⟩ := by
  obtain ⟨r, server, hexchange, -, -⟩ := addsRecords_exchange connection history.server
  rw [ServerHistory.next, handleConnection, Program.bind_run, hexchange] at h
  cases r with
  | error e =>
      obtain rfl := Option.some.inj h
      exact .inl ⟨.error e, server, hexchange, by simp, rfl⟩
  | ok exchanged =>
      obtain ⟨response, viewHeads⟩ := exchanged
      dsimp only at h
      by_cases hstatus : response.status = 0
      · right
        obtain ⟨r, hpersist, hall⟩ := persistViewHeads_run viewHeads.entries server
        rw [if_pos hstatus, Program.bind_run, hpersist] at h
        cases r with
        | error e =>
            obtain rfl := Option.some.inj h
            exact ⟨response, viewHeads, server, [], hexchange, hstatus, .inl rfl, by simp⟩
        | ok u =>
            simp only [Program.pure_run, if_pos hstatus] at h
            obtain rfl := Option.some.inj h
            exact ⟨response, viewHeads, server, viewHeads.entries, hexchange, hstatus,
              .inr ⟨rfl, hall rfl⟩, rfl⟩
      · left
        rw [if_neg hstatus] at h
        simp only [Program.pure_run, if_neg hstatus] at h
        obtain rfl := Option.some.inj h
        refine ⟨_, server, hexchange, ?_, rfl⟩
        rintro response' viewHeads' heq
        obtain ⟨rfl, rfl⟩ := Prod.mk.inj (Except.ok.inj heq)
        exact hstatus

/-- **A connection keeps the accepted heads iff it is a fast-forward.** -/
theorem acceptedKept_iff_fastForward {history history' : ServerHistory} {connection : Connection}
    (hkept : AcceptedKept history) (h : history.next connection = some history') :
    AcceptedKept history' ↔ FastForward history connection := by
  obtain ⟨r, server, hexchange, hviews, hsub⟩ := addsRecords_exchange connection history.server
  have hheads : ∀ view, server.heads view = history.server.heads view := by
    intro view
    rw [NativeServer.heads, NativeServer.heads, hviews]
  rcases ServerHistory.next_cases h with
    ⟨r', server', hexchange', hstatus, rfl⟩
      | ⟨response, viewHeads, server', accepted, hexchange', hstatus, haccepted, rfl⟩
  · obtain ⟨rfl, rfl⟩ : r = r' ∧ server = server' := by simpa [hexchange] using hexchange'
    refine iff_of_true (fun entry hentry => ?_) ?_
    · obtain ⟨head, hhead, hreach⟩ := hkept entry hentry
      exact ⟨head, by rwa [hheads], hsub.reaches hreach⟩
    · intro response viewHeads server' hexchange'' hzero
      rw [hexchange] at hexchange''
      have heq := (Prod.mk.inj (Option.some.inj hexchange'')).1
      exact absurd hzero (hstatus _ _ heq)
  · obtain ⟨rfl, rfl⟩ : r = .ok (response, viewHeads) ∧ server = server' := by
      simpa [hexchange] using hexchange'
    have hnodup := writtenHeads_nodup viewHeads
    have hwritten : ∀ entry ∈ writtenHeads viewHeads.entries,
        NativeServer.heads { server with
          views := replaceHeads server.views (writtenHeads viewHeads.entries) } entry.1
          = {entry.2} := by
      intro entry hentry
      rw [NativeServer.heads, lookup_replaceHeads_of_mem hnodup hentry, Option.getD_some]
    constructor
    · rintro hkept' response' viewHeads' server' hexchange'' - entry hentry old hold hview
      rw [hexchange] at hexchange''
      cases hexchange''
      obtain ⟨head, hhead, hreach⟩ := hkept' old (List.mem_append_left _ hold)
      rw [hview, hwritten entry hentry, Finset.mem_singleton] at hhead
      exact hhead ▸ hreach
    · intro hforward entry hentry
      rcases List.mem_append.mp hentry with hold | hnew
      · by_cases hmem : entry.1 ∈ (writtenHeads viewHeads.entries).map Prod.fst
        · obtain ⟨new, hnew, hview⟩ := List.mem_map.mp hmem
          refine ⟨new.2, ?_, hforward _ _ _ hexchange hstatus new hnew entry hold hview.symm⟩
          rw [← hview, hwritten new hnew]
          exact Finset.mem_singleton_self _
        · obtain ⟨head, hhead, hreach⟩ := hkept entry hold
          refine ⟨head, ?_, hsub.reaches hreach⟩
          rw [NativeServer.heads, lookup_replaceHeads_of_notMem hmem, hviews]
          exact hhead
      · rcases haccepted with rfl | ⟨rfl, hall⟩
        · simp at hnew
        · refine ⟨entry.2, ?_, .refl⟩
          rw [hwritten entry (hall.symm ▸ hnew)]
          exact Finset.mem_singleton_self _

def ServerStep (history : ServerHistory) (connection : Connection) (history' : ServerHistory) :
    Prop :=
  history.next connection = some history'

/-- **The server keeps every accepted head iff every connection is a fast-forward** of the views
that it writes. -/
theorem connections_keep_heads_iff (server : NativeServer) (connections : List Connection)
    (history : ServerHistory) :
    Trace (fun s c s' => ServerStep s c s' ∧ AcceptedKept s') ⟨server, []⟩ connections history
      ↔ Trace (fun s c s' => ServerStep s c s' ∧ FastForward s c) ⟨server, []⟩ connections
        history := by
  refine Trace.guard_iff ?_ fun _ _ _ hkept hstep => acceptedKept_iff_fastForward hkept hstep
  intro entry hentry
  cases hentry

end Histories

/-- A client that sends both changes with the second as the head of `main`. -/
def pushPulled : Connection where
  request := some ⟨1, 1, none, ⟨[("main", pulledChange.id)], by simp⟩, [], []⟩
  peerIsLoopback := true
  stream := [.payload recordedBytes, .payload pulledBytes, .payload []]
  requested := none

/-- A client that has not seen the second change. -/
def pushStale : Connection where
  request := some ⟨1, 1, none, ⟨[("main", recordedChange.id)], by simp⟩, [], []⟩
  peerIsLoopback := true
  stream := []
  requested := none

/-- Both clients are acknowledged, and the change of the first is no longer under the view. -/
theorem stale_push_drops_head :
    letI := Serde.sample [(recordedBytes, recordedChange), (pulledBytes, pulledChange)]
    letI := Crypto.ofBytes
    letI := Ed25519.sample
    ∃ history, [pushPulled, pushStale].foldlM ServerHistory.next ⟨⟨∅, ∅, none⟩, []⟩ = some history
      ∧ history.accepted = [("main", pulledChange.id), ("main", recordedChange.id)]
      ∧ ¬ ∃ head ∈ history.server.heads "main",
        history.server.store.Reaches head pulledChange.id := by
  let _ := Serde.sample [(recordedBytes, recordedChange), (pulledBytes, pulledChange)]
  let _ := Crypto.ofBytes
  let _ := Ed25519.sample
  have hrun : ([pushPulled, pushStale].foldlM ServerHistory.next ⟨⟨∅, ∅, none⟩, []⟩).map
      (fun history => (history.accepted, history.server.heads "main",
        history.server.store.readChange recordedChange.id))
      = some ([("main", pulledChange.id), ("main", recordedChange.id)], {recordedChange.id},
        .ok recordedChange) := by decide +kernel
  obtain ⟨history, hhistory, hobserved⟩ := Option.map_eq_some_iff.mp hrun
  obtain ⟨haccepted, hrest⟩ := Prod.mk.inj hobserved
  obtain ⟨hheads, hread⟩ := Prod.mk.inj hrest
  refine ⟨history, hhistory, haccepted, ?_⟩
  rintro ⟨head, hhead, hreach⟩
  rw [hheads, Finset.mem_singleton] at hhead
  subst hhead
  rcases Relation.ReflTransGen.cases_head hreach with heq | ⟨d, ⟨c, hc, hd⟩, -⟩
  · exact absurd heq (by decide +kernel)
  · rw [hread] at hc
    obtain rfl := Except.ok.inj hc
    exact absurd hd (Finset.notMem_empty d)

end ArcVcs
