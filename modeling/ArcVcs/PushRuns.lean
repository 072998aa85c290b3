import ArcVcs.Replicas

/-!
# Pushes to one repository

Any number of `push_local` calls to one remote, in any order of their reads and writes, and with any
of them stopped or failing. A push turns back at what the remote has, and it saves the heads that it
has loaded at its start together with its own.
-/

namespace ArcVcs

open Repo
open ThreadSystem (Event)

/-- A call of `push_local`. -/
structure LocalPush where
  sender : Repo
  view : String
  fuel : ℕ

def LocalPush.heads (push : LocalPush) : Finset Blake3Hash :=
  (push.sender.views.lookup push.view).getD ∅

/-- Calls that work on one remote. -/
abbrev PushSystem (ι : Type) := ThreadSystem Repo PeerError ι Unit

/-- The remote before the calls. -/
def startPushes {ι : Type} [Crypto] [Serde] (disk : Blake3Hash → Bool) (pushes : ι → LocalPush)
    (remote : Repo) : PushSystem ι :=
  ⟨remote, fun i => pushLocal disk (pushes i).fuel (pushes i).sender (pushes i).view⟩

/-- The remote holds a part of the history, and the histories of the heads of its views. -/
structure SoundRemote (history : FMap Blake3Hash Change) (remote : Repo) : Prop where
  keyed : Keyed remote.store
  sub : ∀ id c, readChange remote.store id = .ok c → readChange history id = .ok c
  live : ∀ view heads, remote.views.lookup view = some heads → Live remote.store ∅ heads

/-- The histories of the heads of the views are stored, and the views lead to the heads of every
call that has returned. -/
structure PushesKept {ι : Type} (pushes : ι → LocalPush) (s : PushSystem ι) : Prop where
  closed : ∀ view heads, s.shared.views.lookup view = some heads → Live s.shared.store ∅ heads
  retained : ∀ i, (s.threads i).result = some (.ok ()) → ∀ h ∈ (pushes i).heads,
    ∃ heads, s.shared.views.lookup (pushes i).view = some heads
      ∧ h ∈ History s.shared.store heads

/-- A search that finds a change on the remote finds its history there. -/
def TurnsAtHistories (action : Σ β : Type, Program Repo PeerError β) (remote : Repo) : Prop :=
  ∀ id, action = ⟨Change, syncAction (readRecord id)⟩ → Stores remote.store id →
    Live remote.store ∅ {id}

/-- A save replaces no heads but those that the heads it saves lead to. -/
def KeepsHeads (action : Σ β : Type, Program Repo PeerError β) (remote : Repo) : Prop :=
  ∀ view heads, action = ⟨Unit, syncAction (saveView view heads)⟩ →
    ∀ old, remote.views.lookup view = some old → ∀ h ∈ old, h ∈ History remote.store heads

/-- An action that takes place as intended, or of which only the effect does. -/
def Unraced {ι : Type} (e : Event ι PeerError) (action : Σ β : Type, Program Repo PeerError β)
    (remote : Repo) : Prop :=
  match e with
  | .step _ => TurnsAtHistories action remote ∧ KeepsHeads action remote
  | .unreported _ _ => KeepsHeads action remote
  | .fail _ _ => True

def RaceFree {ι : Type} (s : PushSystem ι) (e : Event ι PeerError) : Prop :=
  ∀ action, (s.threads e.thread).pending = some action → Unraced e action s.shared

/-- The remote has what it had, and its views lead to the heads that they had. -/
structure Adds (s t : Repo) : Prop where
  store : ∀ id c, s.store.lookup id = some c → t.store.lookup id = some c
  views : ∀ view heads, s.views.lookup view = some heads →
    ∃ heads', t.views.lookup view = some heads' ∧ ∀ h ∈ heads, h ∈ History t.store heads'

variable {store store' history : FMap Blake3Hash Change} {heads heads' : Finset Blake3Hash}
  {id : Blake3Hash} {c : Change} {s t u : Repo}

theorem history_mono (hstore : ∀ id c, store.lookup id = some c → store'.lookup id = some c)
    (hid : id ∈ History store heads) : id ∈ History store' heads := by
  obtain ⟨h, hh, hlead⟩ := hid
  refine ⟨h, hh, Relation.ReflTransGen.mono (fun x y hxy => ?_) _ _ hlead⟩
  obtain ⟨c, hc, rfl, hy⟩ := hxy
  exact ⟨c, readChange_mono hstore hc, rfl, hy⟩

theorem history_trans (hheads : ∀ h ∈ heads, h ∈ History store heads')
    (hid : id ∈ History store heads) : id ∈ History store heads' := by
  obtain ⟨h, hh, hlead⟩ := hid
  obtain ⟨h', hh', hlead'⟩ := hheads h hh
  exact ⟨h', hh', hlead'.trans hlead⟩

theorem Live.grow (h : Live store ∅ heads)
    (hstore : ∀ id c, store.lookup id = some c → store'.lookup id = some c) :
    Live store' ∅ heads :=
  h.mono hstore fun _ _ => by simp

namespace Adds

theorem refl (s : Repo) : Adds s s :=
  ⟨fun _ _ h => h, fun _ heads h => ⟨heads, h, fun _ => mem_history_of_mem⟩⟩

theorem trans (h : Adds s t) (h' : Adds t u) : Adds s u where
  store id c hc := h'.store id c (h.store id c hc)
  views view heads hheads := by
    obtain ⟨heads', hheads', hsub⟩ := h.views view heads hheads
    obtain ⟨heads'', hheads'', hsub'⟩ := h'.views view heads' hheads'
    exact ⟨heads'', hheads'', fun x hx => history_trans hsub' (history_mono h'.store (hsub x hx))⟩

theorem of_store (hstore : ∀ id c, s.store.lookup id = some c → t.store.lookup id = some c)
    (hviews : t.views = s.views) : Adds s t where
  store := hstore
  views _ heads hheads := ⟨heads, hviews ▸ hheads, fun _ => mem_history_of_mem⟩

end Adds

def pushProtocol (ι : Type) (history : FMap Blake3Hash Change) : Protocol Repo PeerError ι where
  Inv := SoundRemote history
  Rely _ := Adds
  Guard e action remote _ := Unraced e action remote
  rely_refl _ := Adds.refl
  rely_trans := Adds.trans

variable {ι α β : Type} {i : ι}

/-- The thread keeps to the protocol, the remote only grows, and `Q` holds from its return on. -/
def PushRuns (history : FMap Blake3Hash Change) (i : ι) (Q : α → Repo → Prop) (thread : SyncM α)
    (s : Repo) : Prop :=
  (pushProtocol ι history).Safe i (fun r t => Adds s t ∧ ∀ a, r = .ok a → Q a t) thread s

namespace PushRuns

variable {Q : α → Repo → Prop} {thread : SyncM α}

theorem bind {Q' : β → Repo → Prop} {f : α → SyncM β} (h : PushRuns history i Q thread s)
    (hs : SoundRemote history s)
    (hf : ∀ a t, SoundRemote history t → Adds s t → Q a t → PushRuns history i Q' (f a) t) :
    PushRuns history i Q' (thread >>= f) s := by
  refine Protocol.Safe.bind h hs (fun a t ht hQ => ?_) fun e t _ hQ =>
    ⟨hQ.1, fun b hb => by cases hb⟩
  exact (hf a t ht hQ.1 (hQ.2 a rfl)).mono fun r u _ hu => ⟨hQ.1.trans hu.1, hu.2⟩

theorem attempt (h : PushRuns history i Q thread s) :
    PushRuns history i (fun r t => ∀ a, r = .ok a → Q a t) thread.attempt s :=
  Protocol.Safe.attempt h fun _ _ _ hQ => ⟨hQ.1, fun _ ha => Except.ok.inj ha ▸ hQ.2⟩

theorem mono {Q' : α → Repo → Prop} (h : PushRuns history i Q thread s)
    (hQ : ∀ a t, Adds s t → Q a t → Q' a t) : PushRuns history i Q' thread s :=
  Protocol.Safe.mono h fun _ t _ hQ' => ⟨hQ'.1, fun a ha => hQ a t hQ'.1 (hQ'.2 a ha)⟩

theorem pure {a : α} (h : ∀ t, Adds s t → Q a t) :
    PushRuns history i Q (Pure.pure a : SyncM α) s := by
  refine fun t hst _ => ⟨hst, ?_⟩
  rintro b ⟨⟩
  exact h t hst

theorem throw {e : PeerError} : PushRuns history i Q (Thread.throw e) s :=
  fun _ hst _ => ⟨hst, fun _ h => by cases h⟩

theorem ofExcept {r : Except PeerError α} (h : ∀ a, r = .ok a → ∀ t, Adds s t → Q a t) :
    PushRuns history i Q (Thread.ofExcept r) s :=
  fun t hst _ => ⟨hst, fun a ha => h a ha t hst⟩

theorem hang : PushRuns history i Q (Thread.hang : SyncM α) s := by
  refine .perform fun t hst ht e r u he hout _ => ?_
  cases hout with
  | step h | unreported h => cases h
  | fail j e =>
      exact ⟨⟨ht, fun _ _ => .refl t⟩, fun v htv _ => ⟨hst.trans htv, fun _ h => by cases h⟩⟩

theorem sync {action : RepoM α} (hQ : ∀ a t u, Adds t u → Q a t → Q a u)
    (hrun : ∀ t r u, Adds s t → SoundRemote history t → action t = some (r, u) →
      KeepsHeads ⟨_, syncAction action⟩ t → SoundRemote history u ∧ Adds t u
        ∧ ∀ a, r = .ok a → TurnsAtHistories ⟨_, syncAction action⟩ t → Q a u) :
    PushRuns history i Q (Repo.sync action) s := by
  refine .perform fun t hst ht e r u he hout hguard => ?_
  cases hout with
  | step h =>
      obtain ⟨⟨r', u'⟩, hact, heq⟩ := Option.map_eq_some_iff.mp h
      obtain ⟨rfl, rfl⟩ := Prod.mk.inj heq
      obtain ⟨hu, htu, hret⟩ := hrun t r' u' hst ht hact hguard.2
      refine ⟨⟨hu, fun _ _ => htu⟩, fun v huv _ => ⟨(hst.trans htu).trans huv, fun a ha => ?_⟩⟩
      cases r' with
      | error e => cases ha
      | ok b =>
          obtain rfl : b = a := Except.ok.inj ha
          exact hQ b u' v huv (hret b rfl hguard.1)
  | fail j e =>
      exact ⟨⟨ht, fun _ _ => .refl t⟩, fun v htv _ => ⟨hst.trans htv, fun _ h => by cases h⟩⟩
  | unreported h j e =>
      obtain ⟨⟨r', u'⟩, hact, heq⟩ := Option.map_eq_some_iff.mp h
      obtain ⟨-, rfl⟩ := Prod.mk.inj heq
      obtain ⟨hu, htu, -⟩ := hrun t r' u' hst ht hact hguard
      exact ⟨⟨hu, fun _ _ => htu⟩, fun v huv _ =>
        ⟨(hst.trans htu).trans huv, fun _ h => by cases h⟩⟩

theorem sync_modify {f : Repo → Repo} {Q : Unit → Repo → Prop}
    (hQ : ∀ a t u, Adds t u → Q a t → Q a u)
    (hf : ∀ t, Adds s t → SoundRemote history t →
      SoundRemote history (f t) ∧ Adds t (f t) ∧ Q () (f t)) :
    PushRuns history i Q (Repo.sync (.modify f)) s := by
  refine .sync hQ fun t r u hst ht hrun _ => ?_
  obtain ⟨-, rfl⟩ := Prod.mk.inj (Option.some_inj.mp hrun)
  obtain ⟨hu, htu, hq⟩ := hf t hst ht
  exact ⟨hu, htu, fun _ _ _ => hq⟩

end PushRuns

theorem SoundRemote.of_store (ht : SoundRemote history t)
    (hkeyed : Keyed u.store) (hsub : ∀ id c, readChange u.store id = .ok c →
      readChange history id = .ok c) (htu : Adds t u) (hviews : u.views = t.views) :
    SoundRemote history u where
  keyed := hkeyed
  sub := hsub
  live view heads hheads := (ht.live view heads (hviews ▸ hheads)).grow htu.store

section Writes

variable [Crypto] {disk : Blake3Hash → Bool} {peer : Peer}

theorem copyBlob_runs (hash : Blake3Hash) (hs : SoundRemote history s) :
    PushRuns history i (fun _ _ => True) (copyBlob disk peer hash) s := by
  have hget : PushRuns history i (fun _ _ => True) getState s := by
    refine .perform fun t hst ht e r u he hout _ => ?_
    have hu : u = t := by
      cases hout with
      | step h | unreported h => exact (Prod.mk.inj (Option.some_inj.mp h)).2.symm
      | fail => rfl
    rw [hu]
    exact ⟨⟨ht, fun _ _ => .refl t⟩, fun v htv _ => ⟨hst.trans htv, fun _ _ => trivial⟩⟩
  refine hget.bind hs fun a t ht _ _ => ?_
  split_ifs with hmem
  · exact .pure fun _ _ => trivial
  · refine PushRuns.bind (.ofExcept (Q := fun _ _ => True) fun _ _ _ _ => trivial) ht
      fun bytes t ht _ _ => ?_
    rw [writeBlob]
    split_ifs with hdisk
    · refine .sync_modify (fun _ _ _ _ h => h) fun t _ ht => ?_
      have hgrows : Adds t { t with blobs := t.blobs.putOnce (Crypto.hashBytes bytes) bytes } :=
        .of_store (fun _ _ h => h) rfl
      exact ⟨ht.of_store ht.keyed ht.sub hgrows rfl, hgrows, trivial⟩
    · exact .throw

/-- By induction on the atoms. -/
theorem copyBlobs_runs (atoms : List Atom) (hs : SoundRemote history s) :
    PushRuns history i (fun _ _ => True) (copyBlobs (copyBlob disk peer) atoms) s := by
  induction atoms generalizing s with
  | nil => exact .pure fun _ _ => trivial
  | cons atom atoms ih =>
      cases atom with
      | insert _ hash => exact (copyBlob_runs hash hs).bind hs fun _ _ ht _ _ => ih ht
      | delete _ hash => exact (copyBlob_runs hash hs).bind hs fun _ _ ht _ _ => ih ht
      | _ => exact ih hs

/-- By induction on the changes. -/
theorem pushChanges_runs {delta : List Change} (hs : SoundRemote history s)
    (hdelta : ∀ c ∈ delta, readChange history c.id = .ok c) :
    PushRuns history i (fun _ t => ∀ c ∈ delta, Stores t.store c.id)
      (pushChanges (copyBlob disk peer) delta) s := by
  induction delta generalizing s with
  | nil => exact .pure fun _ _ _ hc => absurd hc List.not_mem_nil
  | cons c delta ih =>
      have hwrite : PushRuns history i (fun _ t => Stores t.store c.id)
          (sync (Repo.writeChange c)) s := by
        refine .sync_modify (fun _ t u htu h => h.mono htu.store) fun t _ ht => ?_
        have hgrows : Adds t { t with store := t.store.putOnce c.id c } :=
          .of_store (fun _ _ h => FMap.lookup_putOnce_of_some _ _ _ h) rfl
        refine ⟨ht.of_store (ht.keyed.putOnce c) (fun id c' hc' => ?_) hgrows rfl, hgrows, ?_⟩
        · have hid := (readChange_eq_ok_iff.mp hc').2
          rcases readChange_putOnce hc' with hold | rfl
          · exact ht.sub id c' hold
          · exact hid ▸ hdelta c' List.mem_cons_self
        · exact (ht.keyed.stores_putOnce_iff c c.id).mpr (.inr rfl)
      refine hwrite.bind hs fun _ t ht _ hc => ?_
      refine (copyBlobs_runs c.atoms ht).bind ht fun _ u hu htu _ => ?_
      refine (ih hu fun c' hc' => hdelta c' (List.mem_cons_of_mem _ hc')).mono
        fun _ v huv hrest => ?_
      exact List.forall_mem_cons.mpr ⟨(hc.mono htu.store).mono huv.store, hrest⟩

end Writes

/-! ## The search -/

/-- The visited ids are those of changes to write, or of changes that the remote has with their
histories. -/
structure PushSearch (history store : FMap Blake3Hash Change) (visited queue : List Blake3Hash)
    (delta : List Change) : Prop where
  covered : ∀ id ∈ visited, Live store ∅ {id} ∨ ∃ c ∈ delta, c.id = id
  part : ∀ c ∈ delta, readChange history c.id = .ok c
  next : ∀ c ∈ delta, ∀ d ∈ c.deps, d ∈ visited ∨ d ∈ queue

namespace PushSearch

variable {visited queue queue' : List Blake3Hash} {delta : List Change}

theorem start (history store : FMap Blake3Hash Change) (queue : List Blake3Hash) :
    PushSearch history store [] queue [] := by
  constructor <;> simp

theorem grow (h : PushSearch history store visited queue delta)
    (hstore : ∀ id c, store.lookup id = some c → store'.lookup id = some c) :
    PushSearch history store' visited queue delta where
  covered id hid := (h.covered id hid).imp_left fun hlive => hlive.grow hstore
  part := h.part
  next := h.next

theorem skip (h : PushSearch history store visited (id :: queue) delta) (hid : id ∈ visited) :
    PushSearch history store visited queue delta where
  covered := h.covered
  part := h.part
  next c hc d hd := by
    rcases h.next c hc d hd with hseen | hqueue
    · exact .inl hseen
    · rcases List.mem_cons.mp hqueue with rfl | hqueue
      · exact .inl hid
      · exact .inr hqueue

theorem visit (h : PushSearch history store visited (id :: queue) delta)
    (hid : Live store ∅ {id} ∨ ∃ c ∈ delta, c.id = id) :
    PushSearch history store (visited ++ [id]) queue delta where
  covered x hx := by
    rcases List.mem_append.mp hx with hx | hx
    · exact h.covered x hx
    · exact List.mem_singleton.mp hx ▸ hid
  part := h.part
  next c hc d hd := by
    rcases h.next c hc d hd with hseen | hqueue
    · exact .inl (List.mem_append_left _ hseen)
    · rcases List.mem_cons.mp hqueue with rfl | hqueue
      · exact .inl (by simp)
      · exact .inr hqueue

theorem get (h : PushSearch history store visited queue delta)
    (hread : readChange history c.id = .ok c)
    (hdeps : ∀ d ∈ c.deps, d ∈ visited ∨ d ∈ queue ++ queue') :
    PushSearch history store visited (queue ++ queue') (delta ++ [c]) where
  covered x hx := (h.covered x hx).imp_right fun ⟨c', hc', hid⟩ =>
    ⟨c', List.mem_append_left _ hc', hid⟩
  part c' hc' := by
    rcases List.mem_append.mp hc' with hc' | hc'
    · exact h.part c' hc'
    · rwa [List.mem_singleton.mp hc']
  next c' hc' d hd := by
    rcases List.mem_append.mp hc' with hc' | hc'
    · exact (h.next c' hc' d hd).imp_right fun hq => List.mem_append_left _ hq
    · rw [List.mem_singleton.mp hc'] at hd
      exact hdeps d hd

/-- **What is visited is complete** when the changes of the list have been written. -/
theorem live (h : PushSearch history store visited [] delta)
    (hsub : ∀ id c, readChange store id = .ok c → readChange history id = .ok c)
    (hstored : ∀ c ∈ delta, Stores store c.id) (hheads : ∀ x ∈ heads, x ∈ visited) :
    Live store ∅ heads := by
  refine .of_closed (T := {x | Live store ∅ {x} ∨ ∃ c ∈ delta, c.id = x})
    (fun x hx => h.covered x (hheads x hx)) fun x hx => ⟨by simp, ?_⟩
  rcases hx with hlive | ⟨c, hc, rfl⟩
  · have hself : x ∈ History store {x} := mem_history_of_mem (Finset.mem_singleton_self x)
    obtain ⟨-, c, hread⟩ := hlive x hself
    exact ⟨c, hread, fun d hd => .inl (hlive.of_mem (mem_history_of_mem_deps hself hread hd))⟩
  · obtain ⟨c', hread⟩ := hstored c hc
    obtain rfl : c' = c := Except.ok.inj ((hsub _ _ hread).symm.trans (h.part c hc))
    exact ⟨c', hread, fun d hd => h.covered d ((h.next c' hc d hd).resolve_right List.not_mem_nil)⟩

end PushSearch

theorem readRecord_runs (id : Blake3Hash) :
    PushRuns history i (fun r t => ∀ c, r = .ok c → Live t.store ∅ {id})
      (sync (readRecord id)).attempt s := by
  refine PushRuns.attempt (.sync (fun _ t u htu h => h.grow htu.store) fun t r u _ ht hrun _ => ?_)
  obtain ⟨rfl, rfl⟩ := Prod.mk.inj (Option.some_inj.mp hrun)
  exact ⟨ht, .refl t, fun c hc hturns => hturns id rfl ⟨c, hc⟩⟩

/-- By induction on the fuel. -/
theorem pushDelta_runs [Serde] {localStore : FMap Blake3Hash Change} {fuel : ℕ}
    {queue visited : List Blake3Hash} {delta : List Change} (hs : SoundRemote history s)
    (hlocal : ∀ id c, readChange localStore id = .ok c → readChange history id = .ok c)
    (h : PushSearch history s.store visited queue delta) :
    PushRuns history i (fun delta' t => ∃ visited', (∀ x, x ∈ visited ∨ x ∈ queue → x ∈ visited')
      ∧ PushSearch history t.store visited' [] delta')
      (pushDelta localStore fuel queue visited delta) s := by
  induction fuel generalizing queue visited delta s with
  | zero => exact .hang
  | succ fuel ih =>
      cases queue with
      | nil => exact .pure fun t hst => ⟨visited, by simp, h.grow hst.store⟩
      | cons id queue =>
          rw [pushDelta]
          split_ifs with hid
          · refine (ih hs (h.skip hid)).mono ?_
            rintro delta' t - ⟨visited', hsub, hend⟩
            refine ⟨visited', ?_, hend⟩
            rintro x (hx | hx)
            · exact hsub x (.inl hx)
            · rcases List.mem_cons.mp hx with rfl | hx
              · exact hsub x (.inl hid)
              · exact hsub x (.inr hx)
          · refine (readRecord_runs id).bind hs fun r t ht hst hfound => ?_
            have hvisited {visited' : List Blake3Hash} {x : Blake3Hash}
                (hsub : ∀ y ∈ visited ++ [id], y ∈ visited') (hqueue : x ∈ queue → x ∈ visited')
                (hx : x ∈ visited ∨ x ∈ id :: queue) : x ∈ visited' := by
              rw [List.mem_cons] at hx
              rcases hx with hx | rfl | hx
              · exact hsub x (List.mem_append_left _ hx)
              · exact hsub x (by simp)
              · exact hqueue hx
            cases r with
            | ok c =>
                refine (ih ht ((h.grow hst.store).visit (.inl (hfound c rfl)))).mono ?_
                rintro delta' u - ⟨visited', hsub, hend⟩
                exact ⟨visited', fun x => hvisited (fun y hy => hsub y (.inl hy))
                  fun hx => hsub x (.inr hx), hend⟩
            | error e =>
                refine PushRuns.bind (Q := fun c _ => readChange localStore id = .ok c)
                  (.ofExcept fun c hc _ _ => sends_ofStore.mp hc) ht fun c u hu htu hc => ?_
                obtain rfl := (readChange_eq_ok_iff.mp hc).2
                have hdeps : ∀ d ∈ c.deps, d ∈ visited ∨ d ∈ (c.id :: queue)
                    ++ (Serde.iter c.deps).filter fun d => d ∉ visited ++ [c.id] := by
                  intro d hd
                  by_cases hseen : d ∈ visited ++ [c.id]
                  · rcases List.mem_append.mp hseen with hseen | hseen
                    · exact .inl hseen
                    · exact .inr (by simp [List.mem_singleton.mp hseen])
                  · refine .inr (List.mem_append_right _ ?_)
                    refine List.mem_filter.mpr ⟨mem_iter.mpr hd, ?_⟩
                    simpa using hseen
                have hget := ((h.grow hst.store).grow htu.store).get (hlocal _ c hc) hdeps
                have hnext := hget.visit (.inr ⟨c, by simp, rfl⟩)
                refine (ih hu hnext).mono ?_
                rintro delta' v - ⟨visited', hsub, hend⟩
                exact ⟨visited', fun x => hvisited (fun y hy => hsub y (.inl hy))
                  fun hx => hsub x (.inr (List.mem_append_left _ hx)), hend⟩

/-! ## The calls -/

theorem loadView_runs (view : String) :
    PushRuns history i (fun r t => ∀ heads, r = .ok heads → Live t.store ∅ heads)
      (sync (loadView view)).attempt s := by
  refine PushRuns.attempt (.sync (fun _ t u htu h => h.grow htu.store) fun t r u _ ht hrun _ => ?_)
  obtain ⟨r', hload⟩ := exists_loadView view t
  obtain ⟨rfl, rfl⟩ := Prod.mk.inj (Option.some_inj.mp (hload.symm.trans hrun))
  refine ⟨ht, .refl t, fun heads hheads _ => ht.live view heads ?_⟩
  rw [hheads] at hload
  exact (loadView_eq_ok_iff.mp hload).1

def LeadsToHeads (view : String) (heads : Finset Blake3Hash) (s : Repo) : Prop :=
  ∃ heads', s.views.lookup view = some heads' ∧ ∀ h ∈ heads, h ∈ History s.store heads'

theorem LeadsToHeads.grow {view : String} (h : LeadsToHeads view heads s) (hst : Adds s t) :
    LeadsToHeads view heads t := by
  obtain ⟨heads', hheads', hsub⟩ := h
  obtain ⟨heads'', hheads'', hsub'⟩ := hst.views view heads' hheads'
  exact ⟨heads'', hheads'', fun x hx => history_trans hsub' (history_mono hst.store (hsub x hx))⟩

theorem saveView_runs (view : String) (hheads' : heads' ⊆ heads) (hlive : Live s.store ∅ heads) :
    PushRuns history i (fun _ t => LeadsToHeads view heads' t) (sync (saveView view heads)) s := by
  refine .sync (fun _ t u htu h => h.grow htu) fun t r u hst ht hrun hkeeps => ?_
  obtain ⟨rfl, rfl⟩ := Prod.mk.inj (Option.some_inj.mp hrun)
  refine ⟨⟨ht.keyed, ht.sub, fun name x hx => ?_⟩, ⟨fun _ _ h => h, fun name x hx => ?_⟩, ?_⟩
  · rw [FMap.lookup_insert_eq] at hx
    split_ifs at hx with hname
    · exact Option.some_inj.mp hx ▸ hlive.grow hst.store
    · exact ht.live name x hx
  · by_cases hname : name = view
    · refine ⟨heads, by rw [FMap.lookup_insert_eq, if_pos hname], ?_⟩
      exact hkeeps view heads rfl x (hname ▸ hx)
    · exact ⟨x, by rwa [FMap.lookup_insert_eq, if_neg hname], fun _ => mem_history_of_mem⟩
  · exact fun _ _ _ => ⟨heads, by rw [FMap.lookup_insert_eq, if_pos rfl],
      fun h hh => mem_history_of_mem (hheads' hh)⟩

section Calls

variable [Crypto] [Serde] {disk : Blake3Hash → Bool} {pushes : ι → LocalPush}

theorem pushLocal_runs {push : LocalPush} (hs : SoundRemote history s)
    (hlocal : ∀ id c, readChange push.sender.store id = .ok c → readChange history id = .ok c) :
    PushRuns history i (fun _ t => LeadsToHeads push.view push.heads t)
      (pushLocal disk push.fuel push.sender push.view) s := by
  rw [pushLocal, LocalPush.heads]
  cases hview : push.sender.views.lookup push.view with
  | none => exact .throw
  | some localHeads =>
      refine (loadView_runs push.view).bind hs fun r t ht _ hloaded => ?_
      refine (pushDelta_runs ht hlocal (.start history t.store _)).bind ht ?_
      rintro delta u hu htu ⟨visited, hqueue, hsearch⟩
      refine (pushChanges_runs hu hsearch.part).bind hu fun _ v hv huv hstored => ?_
      have hremote : Live v.store ∅ (r.toOption.getD ∅) := by
        cases r with
        | error e => exact .empty _ _
        | ok heads => exact ((hloaded heads rfl).grow htu.store).grow huv.store
      have hlive := (hsearch.grow huv.store).live hv.sub hstored
        fun x hx => hqueue x (.inr (mem_iter.mpr hx))
      exact saveView_runs push.view Finset.subset_union_right (hremote.union hlive)

variable [DecidableEq ι]

/-- **Pushes keep what they have pushed** in every run in which no search turns back at a change
whose history is not there yet, and no save replaces heads that it has not seen. -/
theorem pushesKept_of_unraced {remote : Repo} {s : PushSystem ι} {events : List (Event ι PeerError)}
    (hremote : SoundRemote history remote)
    (hlocal : ∀ i, Replica history (pushes i).sender.store)
    (hrun : Trace (fun s e s' => ThreadSystem.Step s e s' ∧ RaceFree s e)
      (startPushes disk pushes remote) events s) : PushesKept pushes s := by
  have hstart : (pushProtocol ι history).AllSafe
      (fun i r t => r = .ok () → LeadsToHeads (pushes i).view (pushes i).heads t)
      (startPushes disk pushes remote) :=
    ⟨hremote, fun i => Protocol.Safe.mono (pushLocal_runs hremote (hlocal i).sub)
      fun _ _ _ hQ => hQ.2 ()⟩
  have hend := hstart.run hrun
  refine ⟨hend.1.live, fun i hi h hh => ?_⟩
  obtain ⟨heads, hheads, hsub⟩ := hend.result hi rfl
  exact ⟨heads, hheads, hsub h hh⟩

end Calls

/-! ## Races -/

def twoChangesSender (heads : Finset Blake3Hash) : Repo :=
  { Repo.init with store := twoChanges, views := (∅ : FMap _ _).insert "main" heads }

def sendHeads (heads : Finset Blake3Hash) : LocalPush := ⟨twoChangesSender heads, "main", 9⟩

def pushBoth (first second : Finset Blake3Hash) (events : List (Event Bool PeerError)) :
    Option (PushSystem Bool) :=
  let _ := Crypto.sample
  let _ := Serde.sample []
  events.foldlM ThreadSystem.next
    (startPushes (fun _ => true) (fun i => sendHeads (bif i then second else first)) .init)

theorem soundRemote_init : SoundRemote history .init where
  keyed := (replica_init history).keyed
  sub := (replica_init history).sub
  live view heads h := by
    rw [Repo.init, FMap.lookup_singleton] at h
    split_ifs at h
    exact Option.some_inj.mp h ▸ .empty _ _

/-- A remote that has no change but the first, and no heads. -/
structure FirstOnly (remote : Repo) : Prop where
  store : remote.store.keys ⊆ {1}
  first : remote.store.lookup 1 = none ∨ remote.store.lookup 1 = some (.bare 1 ∅ [])
  views : remote.views.keys ⊆ {"main"}
  main : remote.views.lookup "main" = some ∅

instance (remote : Repo) : Decidable (FirstOnly remote) :=
  decidable_of_iff (remote.store.keys ⊆ {1}
      ∧ (remote.store.lookup 1 = none ∨ remote.store.lookup 1 = some (.bare 1 ∅ []))
      ∧ remote.views.keys ⊆ {"main"} ∧ remote.views.lookup "main" = some ∅)
    ⟨fun ⟨h₁, h₂, h₃, h₄⟩ => ⟨h₁, h₂, h₃, h₄⟩, fun h => ⟨h.store, h.first, h.views, h.main⟩⟩

theorem FirstOnly.raceFree {s : PushSystem ι} (h : FirstOnly s.shared)
    (e : Event ι PeerError) : RaceFree s e := by
  have hturns (action : Σ β : Type, Program Repo PeerError β) :
      TurnsAtHistories action s.shared := by
    rintro id - ⟨c, hc⟩
    obtain ⟨hlook, rfl⟩ := readChange_eq_ok_iff.mp hc
    have hid := Finset.mem_singleton.mp (h.store (FMap.mem_keys_of_lookup hlook))
    obtain rfl : c = .bare 1 ∅ [] := by
      rw [hid] at hlook
      rcases h.first with hnone | hsome
      · exact absurd (hnone.symm.trans hlook) (by simp)
      · exact Option.some_inj.mp (hlook.symm.trans hsome)
    refine .of_closed (T := {1}) (fun x hx => Finset.mem_singleton.mp hx) ?_
    rintro x rfl
    exact ⟨by simp, _, hc, fun d hd => absurd hd (Finset.notMem_empty d)⟩
  have hkeeps (action : Σ β : Type, Program Repo PeerError β) : KeepsHeads action s.shared := by
    rintro view heads - old hold x hx
    rw [Finset.mem_singleton.mp (h.views (FMap.mem_keys_of_lookup hold)), h.main] at hold
    exact absurd (Option.some_inj.mp hold ▸ hx) (Finset.notMem_empty x)
  intro action _
  cases e with
  | step => exact ⟨hturns action, hkeeps action⟩
  | fail => exact trivial
  | unreported => exact hkeeps action

/-- A push that nothing interferes with. -/
theorem pushesKept_single :
    let _ := Crypto.sample
    let _ := Serde.sample []
    ∃ s : PushSystem Unit, (s.threads ()).result = some (.ok ())
      ∧ PushesKept (fun _ => sendHeads {1}) s := by
  intro crypto serde
  let events : List (Event Unit PeerError) := List.replicate 4 (.step ())
  have hout : (events.foldlM
      (fun (s : PushSystem Unit) e => (ThreadSystem.next s e).filter fun _ => FirstOnly s.shared)
      (startPushes (fun _ => true) (fun _ => sendHeads {1}) .init)).map
      (fun s => (s.threads ()).result) = some (some (.ok ())) := by decide +kernel
  obtain ⟨s, hs, hresult⟩ := Option.map_eq_some_iff.mp hout
  have htrace := Trace.of_foldlM_filter hs
  exact ⟨s, hresult, pushesKept_of_unraced soundRemote_init (fun _ => replica_twoChanges)
    (htrace.mono fun s e _ h => ⟨h.1, h.2.raceFree e⟩)⟩

/-- Two ways to lose what was pushed: the first push stops between its changes and the second turns
back at the first of them, or the second push has loaded the view before the first saves it. -/
theorem pushes_race :
    let _ := Crypto.sample
    let _ := Serde.sample []
    (¬ ∀ (pushes : Bool → LocalPush) (events : List (Event Bool PeerError)) (s : PushSystem Bool),
      (∀ i, Replica twoChanges (pushes i).sender.store) →
      Trace ThreadSystem.Step (startPushes (fun _ => true) pushes .init) events s →
      ∀ view heads, s.shared.views.lookup view = some heads → Live s.shared.store ∅ heads)
    ∧ ¬ ∀ (pushes : Bool → LocalPush) (events : List (Event Bool PeerError)) (s : PushSystem Bool),
      (∀ i, Replica twoChanges (pushes i).sender.store) →
      Trace ThreadSystem.Step (startPushes (fun _ => true) pushes .init) events s →
      ∀ i, (s.threads i).result = some (.ok ()) → ∀ h ∈ (pushes i).heads,
        ∃ heads, s.shared.views.lookup (pushes i).view = some heads
          ∧ h ∈ History s.shared.store heads := by
  let _ := Crypto.sample
  let _ := Serde.sample []
  constructor
  · intro hall
    let events : List (Event Bool PeerError) :=
      List.replicate 4 (.step false) ++ List.replicate 3 (.step true)
    have hout : (pushBoth {2} {2} events).map (fun s => (s.shared.views.lookup "main",
        s.shared.store.lookup 1, s.shared.store.lookup 2))
        = some (some {2}, none, some (.bare 2 {1} [])) := by decide +kernel
    obtain ⟨s, hs, hout⟩ := Option.map_eq_some_iff.mp hout
    obtain ⟨hview, hnone, hsome⟩ := by simpa only [Prod.mk.injEq] using hout
    have hlive := hall _ events s (fun _ => replica_twoChanges) (Trace.of_foldlM hs)
      "main" {2} hview
    have hread : readChange s.shared.store 2 = .ok (.bare 2 {1} []) :=
      readChange_eq_ok_iff.mpr ⟨hsome, rfl⟩
    obtain ⟨-, c, hc⟩ := hlive 1
      (mem_history_of_mem_deps (mem_history_of_mem (by decide)) hread (by decide))
    rw [readChange_eq_ok_iff, hnone] at hc
    cases hc.1
  · intro hall
    let events : List (Event Bool PeerError) :=
      .step true :: (List.replicate 6 (.step false) ++ List.replicate 2 (.step true))
    have hout : (pushBoth {2} {1} events).map (fun s => ((s.threads false).result,
        s.shared.views.lookup "main", s.shared.store.lookup 1))
        = some (some (.ok ()), some {1}, some (.bare 1 ∅ [])) := by decide +kernel
    obtain ⟨s, hs, hout⟩ := Option.map_eq_some_iff.mp hout
    obtain ⟨hresult, hview, hone⟩ := by simpa only [Prod.mk.injEq] using hout
    have hretained := hall _ events s (fun _ => replica_twoChanges) (Trace.of_foldlM hs) false
      hresult
    obtain ⟨heads, hheads, hmem⟩ := hretained 2 (by decide)
    obtain rfl : {1} = heads := Option.some_inj.mp (hview.symm.trans hheads)
    have hsub : History s.shared.store {1} ⊆ {1} := by
      refine history_subset (fun h hh => Finset.mem_singleton.mp hh) fun id hid c hc d hd => ?_
      rw [Set.mem_singleton_iff.mp hid, readChange_eq_ok_iff, hone] at hc
      rw [← Option.some_inj.mp hc.1] at hd
      exact absurd hd (Finset.notMem_empty d)
    exact absurd (Set.mem_singleton_iff.mp (hsub hmem)) (by decide)

end ArcVcs
