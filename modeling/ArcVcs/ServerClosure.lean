import ArcVcs.Requests

/-!
# The closure of the accepted heads

The native server checks that the dependency closure of a head is stored and verified before it
saves the head. The HTTP server does not: it joins whatever heads a request names. The closure is
kept when every head that a request names is closed in what the server holds and the request sends.
-/

namespace ArcVcs

/-- A store that keeps the verified changes that it accepts, and holds nothing else. -/
structure KeepsChanges {σ : Type} [Crypto] [Ed25519] (write : σ → Change → Except Unit σ)
    (read : σ → Blake3Hash → Option Change) : Prop where
  kept : ∀ {store c store'}, c.verifySignature = true → write store c = .ok store' →
    ∀ {x b}, read store x = some b → read store' x = some b
  written : ∀ {store c store'}, c.verifySignature = true → write store c = .ok store' →
    ∃ b, read store' c.id = some b
  only : ∀ {store c store'}, c.verifySignature = true → write store c = .ok store' →
    ∀ {x b}, read store' x = some b → read store x = some b ∨ x = c.id ∧ b = c

/-- The changes that a store holds under their ids. -/
def held {σ : Type} (read : σ → Blake3Hash → Option Change) (store : σ) : Set Change :=
  {c | read store c.id = some c}

/-- `h` and every transitive dependency of it is the id of a verified change of `S`. -/
def ClosedIn [Crypto] [Ed25519] (S : Set Change) (h : Blake3Hash) : Prop :=
  ∀ x, LeadsTo S h x → ∃ c ∈ S, c.id = x ∧ c.verifySignature = true

/-- Every head that an accepted request names is closed in what the server holds and the request
sends. -/
def NamesClosed {σ : Type} [Crypto] [Ed25519] (read : σ → Blake3Hash → Option Change)
    (disk : ServerDisk σ) : HttpEvent → Prop
  | .accepted _ payload =>
      ∀ h ∈ payload.viewHeads, ClosedIn (held read disk.store ∪ payload.changeSet) h
  | _ => True

section Closed

variable [Crypto] [Ed25519] {W S : Set Change} {h : Blake3Hash}

theorem ClosedIn.of_closed_set (hW : Circulating W) (hS : S ⊆ W) (T : Blake3Hash → Prop)
    (hT : ∀ x, T x → ∃ c ∈ S, c.id = x ∧ c.verifySignature = true ∧ ∀ d ∈ c.deps, T d)
    (hh : T h) : ClosedIn S h := by
  intro x hx
  have hTx : T x := by
    induction hx with
    | refl => exact hh
    | tail _ hlast ih =>
        obtain ⟨c', hc', hid', hy⟩ := hlast
        obtain ⟨c, hc, hid, -, hdeps⟩ := hT _ ih
        have hpayload := hW.payload_eq (hS hc') (hS hc) (hid'.trans hid.symm)
        exact hdeps _ (Change.deps_eq_of_payload_eq hpayload ▸ hy)
  obtain ⟨c, hc, hid, hverified, -⟩ := hT x hTx
  exact ⟨c, hc, hid, hverified⟩

theorem ClosedIn.exists_change (hclosed : ClosedIn S h) :
    ∃ c ∈ S, c.id = h ∧ c.verifySignature = true ∧ ∀ d ∈ c.deps, ClosedIn S d := by
  obtain ⟨c, hc, hid, hverified⟩ := hclosed h .refl
  refine ⟨c, hc, hid, hverified, fun d hd x hx => hclosed x ?_⟩
  exact (Relation.ReflTransGen.single ⟨c, hc, hid, hd⟩).trans hx

theorem ClosedIn.mono {S' : Set Change} (hW : Circulating W) (hS' : S' ⊆ W) (hsub : S ⊆ S')
    (hclosed : ClosedIn S h) : ClosedIn S' h := by
  refine .of_closed_set hW hS' (ClosedIn S) (fun x hx => ?_) hclosed
  obtain ⟨c, hc, hid, hverified, hdeps⟩ := hx.exists_change
  exact ⟨c, hsub hc, hid, hverified, hdeps⟩

end Closed

/-! ## What writes do to the store -/

section Store

variable {σ : Type} [Crypto] [Ed25519] {write : σ → Change → Except Unit σ}
  {read : σ → Blake3Hash → Option Change} {store store' : σ}

/-- The store holds verified changes under their ids. -/
def Sound (read : σ → Blake3Hash → Option Change) (store : σ) : Prop :=
  ∀ x b, read store x = some b → b.id = x ∧ b.verifySignature = true

/-- `store'` holds what `store` holds, and verified changes besides. -/
structure Grows (read : σ → Blake3Hash → Option Change) (store store' : σ) : Prop where
  kept : ∀ {x b}, read store x = some b → read store' x = some b
  sound : Sound read store → Sound read store'

theorem KeepsChanges.grows (hkeeps : KeepsChanges write read) {c : Change}
    (hc : c.verifySignature = true) (hwrite : write store c = .ok store') :
    Grows read store store' := by
  refine ⟨hkeeps.kept hc hwrite, fun hsound x b hb => ?_⟩
  rcases hkeeps.only hc hwrite hb with hold | ⟨rfl, rfl⟩
  · exact hsound x b hold
  · exact ⟨rfl, hc⟩

theorem Grows.refl : Grows read store store := ⟨id, id⟩

theorem Grows.trans {store'' : σ} (h : Grows read store store') (h' : Grows read store' store'') :
    Grows read store store'' :=
  ⟨fun hb => h'.kept (h.kept hb), fun hsound => h'.sound (h.sound hsound)⟩

theorem KeepsChanges.foldlM (hkeeps : KeepsChanges write read) {changes : List Change}
    (hverified : ∀ c ∈ changes, c.verifySignature = true)
    (hwrite : changes.foldlM write store = .ok store') :
    Grows read store store' ∧ ∀ c ∈ changes, ∃ b, read store' c.id = some b := by
  induction changes generalizing store with
  | nil =>
      obtain rfl : store = store' := by simpa [pure, Except.pure] using hwrite
      exact ⟨.refl, by simp⟩
  | cons c changes ih =>
      rw [List.foldlM_cons] at hwrite
      obtain ⟨store₁, hfirst, hrest⟩ := Except.bind_eq_ok_iff.mp hwrite
      have hc := hverified c List.mem_cons_self
      obtain ⟨hgrows, hall⟩ := ih (fun b hb => hverified b (.tail _ hb)) hrest
      refine ⟨(hkeeps.grows hc hfirst).trans hgrows, fun b hb => ?_⟩
      rcases List.mem_cons.mp hb with rfl | hb
      · obtain ⟨y, hy⟩ := hkeeps.written hc hfirst
        exact ⟨y, hgrows.kept hy⟩
      · exact hall b hb

end Store

/-! ## What requests do to the closures -/

/-- The server's author carries the public key of its signing seed. -/
def AppState.KeyPair [Crypto] [Ed25519] (app : AppState) : Prop :=
  ∀ id, Ed25519.verify app.serverAuthor.verifyingKey id (Crypto.sign app.serverSigningSeed id)
    = true

section Server

variable {σ : Type} [Crypto] [Ed25519] {write : σ → Change → Except Unit σ}
  {read : σ → Blake3Hash → Option Change} {app : AppState} {payload : DeltaPayload}
  {disk disk' : ServerDisk σ} {W : Set Change}

theorem MayStore.verified (hsign : app.KeyPair) (hverified : verifyPayload payload = .ok ())
    {c : Change} (hc : MayStore app payload c) : c.verifySignature = true := by
  rcases hc with hc | ⟨rewritten, b, -, rfl⟩
  · exact verified_of_verifyChanges hverified hc
  · exact Change.verifySignature_iff.mpr ⟨rfl, hsign _⟩

theorem Processed.grows {rewritten : FMap Blake3Hash Blake3Hash} {order : List Change}
    (h : Processed write app payload disk disk' rewritten order) (hkeeps : KeepsChanges write read)
    (hsign : app.KeyPair) (hverified : verifyPayload payload = .ok ()) :
    Grows read disk.store disk'.store
      ∧ ∀ c ∈ payload.changes, (∃ b, read disk'.store c.id = some b)
        ∧ ∃ b, read disk'.store (distributed app rewritten c).id = some b := by
  have hall : storedAll app ∅ order = order.flatMap (stored app rewritten) := by
    rw [h.rewritten_eq]
    exact storedAll_suffix h.first (List.nil_append order).symm
  have hstore := h.store
  rw [hall] at hstore
  have hmay : ∀ c ∈ order.flatMap (stored app rewritten), MayStore app payload c := by
    intro c hc
    obtain ⟨b, hb, hc⟩ := List.mem_flatMap.mp hc
    have hb' := h.perm.mem_iff.mp hb
    rw [stored] at hc
    split_ifs at hc
    · rcases List.mem_pair.mp hc with rfl | rfl
      · exact .inl hb'
      · exact .inr ⟨rewritten, b, hb', rfl⟩
    · obtain rfl := List.mem_singleton.mp hc
      exact .inl hb'
  obtain ⟨hgrows, hpresent⟩ :=
    hkeeps.foldlM (fun c hc => (hmay c hc).verified hsign hverified) hstore
  refine ⟨hgrows, fun c hc => ⟨hpresent c ?_, hpresent _ ?_⟩⟩
  · refine List.mem_flatMap.mpr ⟨c, h.perm.mem_iff.mpr hc, ?_⟩
    rw [stored]
    split_ifs <;> exact List.mem_cons_self
  · refine List.mem_flatMap.mpr ⟨c, h.perm.mem_iff.mpr hc, ?_⟩
    have htrigger := mem_keys_iff_triggersCollapse (fun _ => h.lookup_eq) hc
    rw [stored, distributed, if_congr htrigger rfl rfl]
    split_ifs <;> simp

/-- The store is sound and among the changes in circulation, and the heads are closed in it. -/
structure ClosedServer (W : Set Change) (read : σ → Blake3Hash → Option Change)
    (disk : ServerDisk σ) : Prop where
  sound : Sound read disk.store
  within : held read disk.store ⊆ W
  closed : AllHeads (ClosedIn (held read disk.store)) disk

theorem Grows.held_subset {store store' : σ} (h : Grows read store store') :
    held read store ⊆ held read store' := fun _ hc => h.kept hc

theorem Sound.exists_held {store : σ} (hsound : Sound read store) (hW : Circulating W)
    (hwithin : held read store ⊆ W) {c : Change} (hc : c ∈ W)
    (hpresent : ∃ b, read store c.id = some b) :
    ∃ b ∈ held read store, b.id = c.id ∧ b.verifySignature = true ∧ b.deps = c.deps := by
  obtain ⟨b, hb⟩ := hpresent
  obtain ⟨hid, hverified⟩ := hsound _ b hb
  have hmem : b ∈ held read store := by
    change read store b.id = some b
    rw [hid, hb]
  exact ⟨b, hmem, hid, hverified,
    Change.deps_eq_of_payload_eq (hW.payload_eq (hwithin hmem) hc hid)⟩

/-- **The accepted heads are closed.** The closure of a named head in the store and the request
is, under the names that the server gives, a closure in the store afterwards. -/
theorem Processed.closedIn {rewritten : FMap Blake3Hash Blake3Hash} {order : List Change}
    (h : Processed write app payload disk disk' rewritten order) (hkeeps : KeepsChanges write read)
    (hsign : app.KeyPair) (hverified : verifyPayload payload = .ok ()) (hW : Circulating W)
    (hsent : ∀ c ∈ payload.changes, c ∈ W)
    (hmade : ∀ c ∈ payload.changes, distributed app rewritten c ∈ W)
    (hsound : Sound read disk.store) (hwithin : held read disk'.store ⊆ W) {a : Blake3Hash}
    (ha : ClosedIn (held read disk.store ∪ payload.changeSet) a) :
    ClosedIn (held read disk'.store) (remap rewritten a) := by
  obtain ⟨hgrows, hpresent⟩ := h.grows hkeeps hsign hverified
  have hsound' := hgrows.sound hsound
  let known := ClosedIn (held read disk.store ∪ payload.changeSet)
  -- The closures before, under the old names and under the new ones.
  let T := fun x => known x ∨ ∃ b, known b ∧ x = remap rewritten b
  have hold : ∀ x, known x → ∃ c ∈ held read disk'.store, c.id = x
      ∧ c.verifySignature = true ∧ ∀ d ∈ c.deps, T d := by
    intro x hx
    obtain ⟨c, hc | hc, rfl, hcv, hdeps⟩ := hx.exists_change
    · exact ⟨c, hgrows.held_subset hc, rfl, hcv, fun d hd => .inl (hdeps d hd)⟩
    · obtain ⟨b, hb, hid, hbv, hbdeps⟩ :=
        hsound'.exists_held hW hwithin (hsent c hc) (hpresent c hc).1
      exact ⟨b, hb, hid, hbv, fun d hd => .inl (hdeps d (hbdeps ▸ hd))⟩
  refine .of_closed_set hW hwithin T ?_ (.inr ⟨a, ha, rfl⟩)
  rintro x (hx | ⟨b, hb, rfl⟩)
  · exact hold x hx
  · by_cases hin : b ∈ payload.ids
    · obtain ⟨c, hc, rfl⟩ := List.mem_map.mp (DeltaPayload.mem_ids.mp hin)
      obtain ⟨y, hy, hid, hyv, hydeps⟩ :=
        hsound'.exists_held hW hwithin (hmade c hc) (hpresent c hc).2
      rw [distributed_id (fun _ => h.lookup_eq) hc] at hid
      rw [distributed_deps (fun _ => h.lookup_eq) hc] at hydeps
      refine ⟨y, hy, hid, hyv, fun d hd => ?_⟩
      rw [hydeps] at hd
      obtain ⟨e, he, rfl⟩ := Finset.mem_image.mp hd
      exact .inr ⟨e, fun z hz => hb z (.head ⟨c, .inr hc, rfl, he⟩ hz), rfl⟩
    · rw [h.remap_of_notMem hin]
      exact hold b hb

variable [Serde]

theorem HttpStep.closedServer {event : HttpEvent} (hkeeps : KeepsChanges write read)
    (hsign : app.KeyPair) (hW : Circulating W) (hdisk : ClosedServer W read disk)
    (hstep : HttpStep write app W disk event disk') (hwithin : held read disk'.store ⊆ W)
    (hnames : NamesClosed read disk event) : ClosedServer W read disk' := by
  cases hstep with
  | putBlob hash bytes =>
      refine ⟨?_, hwithin, ?_⟩
      · rw [ServerDisk.putBlob_store]
        exact hdisk.sound
      · rw [AllHeads, ServerDisk.putBlob_views, ServerDisk.putBlob_store]
        exact hdisk.closed
  | accepted hsent hrun hmade =>
      obtain ⟨hverified, ⟨disk₁, order, hprocessed, hstore⟩, -⟩ := postSync_eq_ok hrun
      have hgrows := (hprocessed.grows hkeeps hsign hverified).1
      rw [← hstore] at hgrows
      refine ⟨hgrows.sound hdisk.sound, hwithin, ?_⟩
      have hbefore : AllHeads (ClosedIn (held read disk'.store)) disk :=
        fun view heads hlook x hx =>
        (hdisk.closed view heads hlook x hx).mono hW hwithin hgrows.held_subset
      rw [allHeads_postSync_iff hbefore hrun]
      intro a ha
      rw [hstore] at hwithin ⊢
      exact hprocessed.closedIn hkeeps hsign hverified hW hsent hmade hdisk.sound hwithin
        (hnames a ha)
  | refused hsent hrun =>
      let I : ServerDisk σ → Prop := fun d => Grows read disk.store d.store ∧ d.views = disk.views
      have hI : I disk' := by
        refine postSync_error_keeps hrun (fun hverified c hc => storeChange_keeps
          fun d store hd hwrite => ⟨?_, hd.2⟩) ⟨.refl, rfl⟩
        exact hd.1.trans (hkeeps.grows (hc.verified hsign hverified) hwrite)
      refine ⟨hI.1.sound hdisk.sound, hwithin, fun view heads hlook x hx => ?_⟩
      rw [hI.2] at hlook
      exact (hdisk.closed view heads hlook x hx).mono hW hwithin hI.1.held_subset

/-- **The heads of the HTTP server are closed** in every run from an empty repository whose
accepted requests name only heads that are closed in what the server holds and they send. -/
theorem accepted_heads_closed (hkeeps : KeepsChanges write read) (hsign : app.KeyPair)
    (hW : Circulating W) {start : ServerDisk σ} (hempty : ∀ x, read start.store x = none)
    (hviews : start.views = ∅) {events : List HttpEvent}
    (hrun : Trace (fun disk event disk' => HttpStep write app W disk event disk'
      ∧ held read disk'.store ⊆ W ∧ NamesClosed read disk event) start events disk) :
    ∀ view heads, disk.views.lookup view = some heads → ∀ h ∈ heads,
      ∀ x, LeadsTo (held read disk.store) h x →
        ∃ c, read disk.store x = some c ∧ c.id = x ∧ c.verifySignature = true := by
  have hstart : ClosedServer W read start := by
    refine ⟨fun x b hb => ?_, fun c hc => ?_, fun view heads hlook => ?_⟩
    · rw [hempty] at hb
      cases hb
    · change read start.store c.id = some c at hc
      rw [hempty] at hc
      cases hc
    · rw [hviews] at hlook
      cases hlook
  have hinv : ClosedServer W read disk := by
    induction hrun with
    | nil => exact hstart
    | snoc _ hlast ih =>
        exact hlast.1.closedServer hkeeps hsign hW ih hlast.2.1 hlast.2.2
  intro view heads hlook h hh x hx
  obtain ⟨c, hc, rfl, hverified⟩ := hinv.closed view heads hlook h hh x hx
  exact ⟨c, hc, rfl, hverified⟩

end Server

/-! ## Two stores -/

theorem keepsChanges_writeChange [Crypto] [Ed25519] [Serde] [LawfulCrypto]
    (hinj : ∀ c : Change, c.verifySignature = true →
      Set.InjOn Crypto.hashBytes {Bincode.serialize c, Bincode.idPayload c.payload}) :
    KeepsChanges writeChange fun store id => (store.readChange id).toOption := by
  have hrefused : ∀ {c : Change} {store store' : ObjectStore}, c.verifySignature = true →
      writeChange store c ≠ .ok store' := by
    intro c store store' hc hwrite
    rw [writeChange, writeObject_verified hc (hinj c hc)] at hwrite
    cases hwrite
  exact ⟨fun hc hw => absurd hw (hrefused hc), fun hc hw => absurd hw (hrefused hc),
    fun hc hw => absurd hw (hrefused hc)⟩

/-- A store that takes every change, once. -/
def keepOnce (store : FMap Blake3Hash Change) (c : Change) :
    Except Unit (FMap Blake3Hash Change) := .ok (store.putOnce c.id c)

def readKept (store : FMap Blake3Hash Change) (id : Blake3Hash) : Option Change := store.lookup id

theorem keepsChanges_keepOnce [Crypto] [Ed25519] : KeepsChanges keepOnce readKept := by
  have hok : ∀ {c : Change} {store store' : FMap Blake3Hash Change},
      keepOnce store c = .ok store' → store' = store.putOnce c.id c := by
    intro c store store' h
    exact (Except.ok.inj h).symm
  refine ⟨fun {store c store'} _ hwrite x b hb => ?_, fun {store c store'} _ hwrite => ?_,
    fun {store c store'} _ hwrite x b hb => ?_⟩
  · rw [hok hwrite]
    exact FMap.lookup_putOnce_of_some store c.id c hb
  · rw [hok hwrite, readKept, FMap.lookup_putOnce]
    by_cases hkey : c.id ∈ store.keys
    · simpa [hkey] using FMap.mem_keys_iff.mp hkey
    · exact ⟨c, by simp [hkey]⟩
  · rw [hok hwrite, readKept, FMap.lookup_putOnce] at hb
    split_ifs at hb with hnew
    · exact .inr ⟨hnew.1, (Option.some_inj.mp hb).symm⟩
    · exact .inl hb

/-- A request that sends a change with its dependency. -/
theorem accepted_closed_request :
    letI := Serde.sample []
    letI := Crypto.ofBytes
    letI := Ed25519.sample
    let app : AppState := ⟨.server "s" 3, 3⟩
    let payload : DeltaPayload := ⟨[dependentChange, transientChange], {dependentChange.id}⟩
    let W : Set Change := {c | c ∈ storedAll app ∅ [transientChange, dependentChange]}
    ∃ disk, HttpStep keepOnce app W ⟨∅, ∅, ∅⟩ (.accepted "main" payload) disk
      ∧ ∀ h ∈ loadHeads disk "main", ∃ c, disk.store.lookup h = some c ∧ c.id = h
        ∧ c.verifySignature = true := by
  intro app payload W
  let _ := Serde.sample []
  let _ := Crypto.ofBytes
  let _ := Ed25519.sample
  have hW : Circulating W := circulating_of_nodup (by decide +kernel) (by decide +kernel)
  have hsign : app.KeyPair := fun id => by
    change decide (_ = _) = true
    exact decide_eq_true rfl
  obtain ⟨disk, hstep, hkeys⟩ : ∃ disk,
      HttpStep keepOnce app W ⟨∅, ∅, ∅⟩ (.accepted "main" payload) disk
        ∧ decide (∀ x ∈ disk.store.keys, ∀ c ∈ disk.store.lookup x,
          c ∈ storedAll app ∅ [transientChange, dependentChange]) = true :=
    exists_accepted (by decide +kernel) (by decide +kernel)
  have hheld : held readKept disk.store ⊆ W := fun c hc =>
    of_decide_eq_true hkeys c.id (FMap.mem_keys_of_lookup hc) c hc
  have hnames : NamesClosed readKept (⟨∅, ∅, ∅⟩ : ServerDisk (FMap Blake3Hash Change))
      (.accepted "main" payload) := by
    have hsub : held readKept (∅ : FMap Blake3Hash Change) ∪ payload.changeSet ⊆ W := by
      rintro c (hc | hc)
      · cases hc
      · have hsent : ∀ c ∈ payload.changes,
            c ∈ storedAll app ∅ [transientChange, dependentChange] := by decide +kernel
        exact hsent c hc
    have hdeps : ∀ c ∈ payload.changes, c.verifySignature = true
        ∧ ∀ d ∈ c.deps, d ∈ payload.changes.map Change.id := by decide +kernel
    have hheads : ∀ h ∈ payload.viewHeads, h ∈ payload.changes.map Change.id := by decide +kernel
    intro h hh
    refine .of_closed_set hW hsub (· ∈ payload.changes.map Change.id) (fun x hx => ?_) (hheads h hh)
    obtain ⟨c, hc, rfl⟩ := List.mem_map.mp hx
    exact ⟨c, .inr hc, rfl, hdeps c hc⟩
  have hrun : Trace (fun disk event disk' => HttpStep keepOnce app W disk event disk'
      ∧ held readKept disk'.store ⊆ W ∧ NamesClosed readKept disk event) ⟨∅, ∅, ∅⟩
      [.accepted "main" payload] disk := .snoc (.nil _) ⟨hstep, hheld, hnames⟩
  have hclosed := accepted_heads_closed keepsChanges_keepOnce hsign hW (fun _ => rfl) rfl hrun
  refine ⟨disk, hstep, fun h hh => ?_⟩
  rw [loadHeads] at hh
  cases hlook : disk.views.lookup "main" with
  | none => simp [hlook] at hh
  | some heads => exact hclosed "main" heads hlook h (by simpa [hlook] using hh) h .refl

/-- The server's own store accepts a head whose change nobody has sent. A store that takes every
change also accepts a change whose dependency nobody has sent. -/
theorem accepted_head_not_stored :
    letI := Serde.sample []
    letI := Crypto.ofBytes
    letI := Ed25519.sample
    let app : AppState := ⟨.server "s" 3, 3⟩
    let W : Set Change := {c | c ∈ [dependentChange]}
    Circulating W
      ∧ (∃ disk, Trace (HttpStep writeChange app W) ⟨∅, ∅, ∅⟩
          [.accepted "main" ⟨[], {dependentChange.id}⟩] disk
        ∧ ∃ h ∈ loadHeads disk "main", (disk.store.readChange h).toOption = none)
      ∧ ∃ disk, Trace (HttpStep keepOnce app W) ⟨∅, ∅, ∅⟩
          [.accepted "main" ⟨[dependentChange], {dependentChange.id}⟩] disk
        ∧ ∃ h ∈ loadHeads disk "main", ∃ c ∈ readKept disk.store h, ∃ d ∈ c.deps,
          readKept disk.store d = none := by
  intro app W
  let _ := Serde.sample []
  let _ := Crypto.ofBytes
  let _ := Ed25519.sample
  have hW : Circulating W := circulating_of_nodup (by decide +kernel) (by decide +kernel)
  refine ⟨hW, ?_, ?_⟩
  · obtain ⟨disk, hstep, hhead⟩ : ∃ disk, HttpStep writeChange app W ⟨∅, ∅, ∅⟩
          (.accepted "main" ⟨[], {dependentChange.id}⟩) disk
        ∧ decide (∃ h ∈ loadHeads disk "main", (disk.store.readChange h).toOption = none) = true :=
      exists_accepted (by simp) (by decide)
    exact ⟨disk, .snoc (.nil _) hstep, of_decide_eq_true hhead⟩
  · obtain ⟨disk, hstep, hhead⟩ : ∃ disk, HttpStep keepOnce app W ⟨∅, ∅, ∅⟩
          (.accepted "main" ⟨[dependentChange], {dependentChange.id}⟩) disk
        ∧ decide (∃ h ∈ loadHeads disk "main", ∃ c ∈ readKept disk.store h, ∃ d ∈ c.deps,
          readKept disk.store d = none) = true :=
      exists_accepted (by decide +kernel) (by decide +kernel)
    exact ⟨disk, .snoc (.nil _) hstep, of_decide_eq_true hhead⟩

end ArcVcs
