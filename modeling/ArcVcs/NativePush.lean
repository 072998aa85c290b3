import ArcVcs.NativeSessions
import ArcVcs.SyncCodec
import Mathlib.Data.Set.Card
import Mathlib.Algebra.BigOperators.Finprod
import Mathlib.Data.List.TakeWhile

/-!
# The native push

`sync_remote_from_repo` against the connection that serves it. The client sends what the missing
heads reach in its own store and takes no answer, so it can succeed where the server refuses.
-/

namespace ArcVcs

inductive PushError where
  | handshakeFailed (status : UInt8)
  | rejectedCapabilities
  | unreadable (id : Blake3Hash)
  | decode (id : Blake3Hash)
  | idMismatch (id : Blake3Hash)
  | verification (id : Blake3Hash)
  | frameTooLong (id : Blake3Hash)
deriving DecidableEq

def syncRequest (viewHeads : ViewHeads) (authToken : Option String) : HandshakeRequest :=
  ⟨1, 1, authToken, viewHeads, [.payloadStreamV1, .typedChangeId],
    [.keepAlive, .progressSideband]⟩

namespace ObjectStore

variable [Serde] (store : ObjectStore)

/-- How both loops of a push read a local change. -/
def readLocal (id : Blake3Hash) : Except PushError (Bytes × Change) :=
  match store.readChangeBytes id with
  | .error _ => .error (.unreadable id)
  | .ok raw =>
      match Serde.deserialize raw with
      | none => .error (.decode id)
      | some change => if change.id ≠ id then .error (.idMismatch id) else .ok (raw, change)

/-- One step of `collect_required_closure`. -/
def visitLocal (id : Blake3Hash) : Except PushError (List Blake3Hash) :=
  (store.readLocal id).map fun r => pushOrder r.2

def collectRequiredClosure (requiredChanges : List Blake3Hash) :
    Option (Except PushError (List Blake3Hash)) :=
  DepthFirst.search store.visitLocal (store.searchFuel requiredChanges)
    requiredChanges.reverse []

variable [Crypto] [Ed25519]

/-- The frames that go out, up to the end of the stream or to a failure. The codec refuses a record
that is too long for a frame. -/
def streamChanges : List Blake3Hash → List PayloadFrame × Except PushError Unit
  | [] => ([.payload []], .ok ())
  | id :: ids =>
      match store.readLocal id with
      | .error e => ([], .error e)
      | .ok (raw, change) =>
          if change.verifySignature = false then ([], .error (.verification id))
          else if SyncCodec.maxFrameLen < raw.length then ([], .error (.frameTooLong id))
          else
            let (frames, sent) := streamChanges ids
            (.payload raw :: frames, sent)

def streamRequiredChanges (requiredChanges : List Blake3Hash) :
    Option (List PayloadFrame × Except PushError Unit) :=
  match store.collectRequiredClosure requiredChanges with
  | none => none
  | some (.error e) => some ([], .error e)
  | some (.ok ids) => some (store.streamChanges ids)

/-- `sync_remote_from_repo` after the request: the frames that it sends, on a connection that takes
them, and its result. The server has sorted the changes that it requires. -/
def syncRemoteFromRepo (request : HandshakeRequest) (response : HandshakeResponse) :
    Option (List PayloadFrame × Except PushError HandshakeResponse) :=
  if response.status ≠ 0 then some ([], .error (.handshakeFailed response.status))
  else if (∃ cap ∈ request.requiredCapabilities, cap ∉ response.negotiatedCapabilities)
      ∨ response.rejectedRequiredCapabilities ≠ ∅ then some ([], .error .rejectedCapabilities)
  else if response.requiredChanges = ∅ then some ([], .ok response)
  else
    (store.streamRequiredChanges response.requiredChanges.sorted).map fun out =>
      (out.1, out.2.map fun _ => response)

/-- The record decodes to a change with this id and a valid signature. -/
def Verified (id : Blake3Hash) : Prop :=
  ∃ c, store.readChange id = .ok c ∧ c.verifySignature = true

/-- Whatever a record reaches is there and verified. -/
def Sound : Prop := ∀ id ∈ store.keys, ∀ a, store.Reaches id a → store.Verified a

def recordSize (id : Blake3Hash) : ℕ := ((store.lookup id).getD []).length

end ObjectStore

/-- A client, the heads that it names, and how it comes to the server. -/
structure Push where
  store : ObjectStore
  viewHeads : ViewHeads
  authToken : Option String
  peerIsLoopback : Bool

namespace Push

variable [Crypto] [Ed25519] [Serde] (push : Push) (server : NativeServer)

def request : HandshakeRequest := syncRequest push.viewHeads push.authToken

def response : HandshakeResponse := handshake server push.request push.peerIsLoopback

def connection (stream : List PayloadFrame) : Connection :=
  ⟨some push.request, push.peerIsLoopback, stream, none⟩

/-- What the client gets, what the server gets, and the server afterwards. -/
def run : Option (Except PushError HandshakeResponse
    × Except ConnectionError (HandshakeResponse × ViewHeads) × NativeServer) := do
  let (stream, sent) ← push.store.syncRemoteFromRepo push.request (push.response server)
  let (served, server') ← handleConnection (push.connection stream) server
  some (sent, served, server')

/-- A head that the server lacks reaches the change. -/
def Sends (id : Blake3Hash) : Prop :=
  ∃ entry ∈ push.viewHeads.entries, entry.2 ∉ server.store.keys ∧ push.store.Reaches entry.2 id

/-- What is sent is within the limits of the server. -/
def Fits : Prop :=
  {id | push.Sends server id}.ncard ≤ maxPayloadFrames
    ∧ ∑ᶠ id ∈ {id | push.Sends server id}, push.store.recordSize id ≤ maxTotalPayloadBytes

end Push

namespace ObjectStore

/-! ## Searches that read every node -/

section Searches

variable [Serde] {store : ObjectStore}

theorem DependsOn.mem_deps {x d : Blake3Hash} {c : Change} (h : store.DependsOn x d)
    (hc : store.readChange x = .ok c) : d ∈ c.deps := by
  obtain ⟨c', hc', hd⟩ := h
  rw [hc] at hc'
  exact Except.ok.inj hc' ▸ hd

/-- A search that must read what it visits fails, or it visits what is reachable. -/
theorem search_reads {ε : Type} {visit : Blake3Hash → Except ε (List Blake3Hash)}
    {Good : Change → Prop}
    (hvisit : ∀ id next, visit id = .ok next
      ↔ ∃ c, store.readChange id = .ok c ∧ Good c ∧ next = pushOrder c) (heads : List Blake3Hash) :
    (∃ e a, DepthFirst.search visit (store.searchFuel heads) heads.reverse [] = some (.error e)
        ∧ (∃ head ∈ heads, store.Reaches head a)
        ∧ ¬ ∃ c, store.readChange a = .ok c ∧ Good c)
      ∨ ∃ ids, DepthFirst.search visit (store.searchFuel heads) heads.reverse [] = some (.ok ids)
        ∧ ids.Nodup ∧ (∀ a, a ∈ ids ↔ ∃ head ∈ heads, store.Reaches head a)
        ∧ ∀ a ∈ ids, ∃ c, store.readChange a = .ok c ∧ Good c := by
  have hpushed : ∀ {x y}, y ∈ DepthFirst.pushed visit x → store.DependsOn x y := by
    intro x y hy
    cases hx : visit x with
    | error e =>
        rw [DepthFirst.pushed, hx] at hy
        cases hy
    | ok next =>
        obtain ⟨c, hc, -, rfl⟩ := (hvisit x next).mp hx
        rw [DepthFirst.pushed_of_ok hx] at hy
        exact ⟨c, hc, mem_pushOrder.mp hy⟩
  have hreaches : ∀ {x a}, Relation.ReflTransGen (fun x y => y ∈ DepthFirst.pushed visit x) x a →
      store.Reaches x a := fun h => Relation.ReflTransGen.mono (fun _ _ => hpushed) _ _ h
  obtain ⟨out, hout⟩ : ∃ out,
      DepthFirst.search visit (store.searchFuel heads) heads.reverse [] = some out := by
    refine search_isSome (fun id next h => ?_) heads
    obtain ⟨c, hc, -, rfl⟩ := (hvisit id next).mp h
    rw [recordedDeps_of_readChange hc]
  cases out with
  | error e =>
      left
      by_contra hall
      refine (DepthFirst.Inv.init heads.reverse).search_ne_error ?_ hout
      rintro a ⟨head, hhead, hpath⟩
      by_contra hnone
      refine hall ⟨e, a, hout, ⟨head, List.mem_reverse.mp hhead, hreaches hpath⟩, ?_⟩
      rintro ⟨c, hc, hgood⟩
      exact hnone ⟨_, (hvisit a _).mpr ⟨c, hc, hgood, rfl⟩⟩
  | ok ids =>
      right
      obtain ⟨hnodup, hvisited, hmem⟩ := DepthFirst.search_ok hout
      have hread : ∀ a ∈ ids, ∃ c, store.readChange a = .ok c ∧ Good c := by
        intro a ha
        obtain ⟨next, hnext⟩ := hvisited a ha
        obtain ⟨c, hc, hgood, -⟩ := (hvisit a next).mp hnext
        exact ⟨c, hc, hgood⟩
      refine ⟨ids, hout, hnodup, fun a => ⟨fun ha => ?_, ?_⟩, hread⟩
      · obtain ⟨head, hhead, hpath⟩ := (hmem a).mp ha
        exact ⟨head, List.mem_reverse.mp hhead, hreaches hpath⟩
      · rintro ⟨head, hhead, hpath⟩
        induction hpath with
        | refl => exact (hmem head).mpr ⟨head, List.mem_reverse.mpr hhead, .refl⟩
        | @tail x d _ hstep ih =>
            obtain ⟨c, hc, hgood⟩ := hread x ih
            obtain ⟨q, hq, hpath⟩ := (hmem x).mp ih
            refine (hmem d).mpr ⟨q, hq, hpath.tail ?_⟩
            rw [DepthFirst.pushed_of_ok ((hvisit x _).mpr ⟨c, hc, hgood, rfl⟩), mem_pushOrder]
            exact hstep.mem_deps hc

end Searches

section Streams

variable [Crypto] [Ed25519] [Serde] {store : ObjectStore}

def GoodRecord (record : Blake3Hash × Bytes) : Prop :=
  ∃ c, Serde.deserialize record.2 = some c ∧ c.id = record.1 ∧ c.verifySignature = true

def writeAll (store : ObjectStore) (records : List (Blake3Hash × Bytes)) : ObjectStore :=
  records.foldl (fun store record => store.writeChangeBytes record.1 record.2) store

variable (hempty : Serde.deserialize [] = none)

include hempty in
theorem ingestFrames_cons {record : Blake3Hash × Bytes} (hrecord : GoodRecord record)
    (allowKeepalive : Bool) (frames : List PayloadFrame) (frameCount totalBytes : ℕ)
    (server : NativeServer) :
    ingestFrames allowKeepalive (.payload record.2 :: frames) frameCount totalBytes server
      = if maxPayloadFrames < frameCount + 1 then some (.error .frameLimit, server)
        else if maxTotalPayloadBytes < totalBytes + record.2.length then
          some (.error .sizeLimit, server)
        else ingestFrames allowKeepalive frames (frameCount + 1) (totalBytes + record.2.length)
          { server with store := server.store.writeChangeBytes record.1 record.2 } := by
  obtain ⟨id, raw⟩ := record
  obtain ⟨c, hdecode, rfl, hverify⟩ := hrecord
  cases raw with
  | nil =>
      rw [hempty] at hdecode
      cases hdecode
  | cons byte raw =>
      rw [ingestFrames]
      · split_ifs
        · rfl
        · rfl
        · simp only [hdecode, hverify, Bool.true_eq_false, if_false]
          rfl
      · simp

end Streams

/-! ## What the server has afterwards -/

section Writes

variable [Crypto] [Ed25519] [Serde] {store client : ObjectStore}
  {records : List (Blake3Hash × Bytes)}

omit [Crypto] [Ed25519] [Serde] in
theorem subStore_writeAll (store : ObjectStore) (records : List (Blake3Hash × Bytes)) :
    store.SubStore (store.writeAll records) := by
  induction records generalizing store with
  | nil => exact .refl store
  | cons record records ih => exact (subStore_writeChangeBytes store _ _).trans (ih _)

omit [Crypto] [Ed25519] [Serde] in
theorem mem_keys_writeAll {id : Blake3Hash} :
    id ∈ (store.writeAll records).keys ↔ id ∈ store.keys ∨ id ∈ records.map Prod.fst := by
  induction records generalizing store with
  | nil => simp [writeAll]
  | cons record records ih =>
      have hput : id ∈ (store.writeChangeBytes record.1 record.2).keys
          ↔ id = record.1 ∨ id ∈ store.keys := FMap.mem_keys_putOnce
      refine ih.trans ?_
      rw [hput, List.map_cons, List.mem_cons]
      tauto

omit [Crypto] [Ed25519] [Serde] in
theorem lookup_writeAll {id : Blake3Hash} {bytes : Bytes}
    (h : (store.writeAll records).lookup id = some bytes) :
    store.lookup id = some bytes ∨ (id, bytes) ∈ records := by
  induction records generalizing store with
  | nil => exact .inl h
  | cons record records ih =>
      rcases ih h with hlook | hmem
      · have hput := FMap.lookup_putOnce store record.1 id record.2
        split_ifs at hput with hid
        · obtain ⟨rfl, -⟩ := hid
          exact .inr (Option.some.inj (hput.symm.trans hlook) ▸ List.mem_cons_self)
        · exact .inl (hput.symm.trans hlook)
      · exact .inr (.tail _ hmem)

omit [Crypto] [Ed25519] [Serde] in
theorem mem_keys_of_lookup {id : Blake3Hash} {bytes : Bytes} (h : store.lookup id = some bytes) :
    id ∈ store.keys := FMap.mem_keys_iff.mpr ⟨bytes, h⟩

/-- Records that are closed in the store of the client leave the store of the server sound. -/
theorem Sound.writeAll (hstore : store.Sound)
    (hrecords : ∀ record ∈ records, client.lookup record.1 = some record.2 ∧ GoodRecord record)
    (hclosed : ∀ id ∈ records.map Prod.fst, ∀ d, client.DependsOn id d →
      d ∈ records.map Prod.fst) : (store.writeAll records).Sound := by
  have hstep : ∀ id ∈ (store.writeAll records).keys, (store.writeAll records).Verified id
      ∧ ∀ d, (store.writeAll records).DependsOn id d → d ∈ (store.writeAll records).keys := by
    intro id hid
    obtain ⟨bytes, hbytes⟩ := FMap.mem_keys_iff.mp hid
    rcases lookup_writeAll hbytes with hlook | hmem
    · have hkey := mem_keys_of_lookup hlook
      obtain ⟨c, hc, hverify⟩ := hstore id hkey id .refl
      have hc' : (store.writeAll records).readChange id = .ok c := by
        obtain ⟨raw, hraw, hdecode⟩ := readChange_eq_ok_iff.mp hc
        exact readChange_eq_ok_iff.mpr ⟨raw, subStore_writeAll _ _ _ _ hraw, hdecode⟩
      refine ⟨⟨c, hc', hverify⟩, fun d hd => mem_keys_writeAll.mpr (.inl ?_)⟩
      have hdep : store.DependsOn id d := ⟨c, hc, hd.mem_deps hc'⟩
      obtain ⟨c', hread, -⟩ := hstore id hkey d (.single hdep)
      exact mem_keys_of_readChange hread
    · obtain ⟨hlook, c, hdecode, hcid, hverify⟩ := hrecords _ hmem
      have hc := readChange_eq_ok_iff.mpr ⟨bytes, hbytes, hdecode, hcid⟩
      refine ⟨⟨c, hc, hverify⟩, fun d hd => mem_keys_writeAll.mpr (.inr ?_)⟩
      exact hclosed id (List.mem_map_of_mem hmem) d
        ⟨c, readChange_eq_ok_iff.mpr ⟨bytes, hlook, hdecode, hcid⟩, hd.mem_deps hc⟩
  intro id hid a hreach
  have ha : a ∈ (store.writeAll records).keys := by
    induction hreach with
    | refl => exact hid
    | tail _ hdep ih => exact (hstep _ ih).2 _ hdep
  exact (hstep a ha).1

end Writes

end ObjectStore

namespace Push

variable [Crypto] [Ed25519] [Serde] {push : Push} {server server' : NativeServer}

omit [Crypto] [Ed25519] [Serde] in
theorem response_of_authorized
    (h : isAuthorizedPeer push.peerIsLoopback server.token push.authToken = true) :
    push.response server = ⟨0, {.payloadStreamV1, .typedChangeId, .keepAlive}, ∅,
      computeRequiredHashes server.store push.viewHeads⟩ := by
  have hcaps : negotiateCapabilities push.request serverCapabilities
      = ({.payloadStreamV1, .typedChangeId, .keepAlive}, ∅) := rfl
  simp only [response, handshake, hcaps]
  simp [request, syncRequest, h]

omit [Crypto] [Ed25519] [Serde] in
theorem mem_computeRequiredHashes {store : ObjectStore} {viewHeads : ViewHeads}
    {id : Blake3Hash} :
    id ∈ computeRequiredHashes store viewHeads
      ↔ id ∉ store.keys ∧ ∃ entry ∈ viewHeads.entries, entry.2 = id := by
  simp only [computeRequiredHashes, List.mem_toFinset, List.mem_filter, List.mem_map,
    decide_eq_true_iff]
  exact and_comm

theorem handleConnection_of_exchange_error {connection : Connection} {e : ConnectionError}
    (h : exchange connection server = some (.error e, server')) :
    handleConnection connection server = some (.error e, server') := by
  rw [handleConnection, Program.bind_run, h]

/-- A connection of an authorized client: the stream, if heads are missing, and the closure. -/
theorem exchange_of_authorized
    (h : isAuthorizedPeer push.peerIsLoopback server.token push.authToken = true)
    (stream : List PayloadFrame) :
    exchange (push.connection stream) server
      = ((if computeRequiredHashes server.store push.viewHeads ≠ ∅ then
            ingestPayloadStream stream (computeRequiredHashes server.store push.viewHeads) true
          else pure ()) >>= fun _ => (do
            ensureClosure (push.viewHeads.entries.map Prod.snd)
            pure (push.response server, push.viewHeads))) server := by
  have hresponse : handshake server push.request push.peerIsLoopback = _ :=
    response_of_authorized h
  simp only [exchange, connection, Program.get, Program.bind_run, response, hresponse]
  split_ifs <;>
    simp_all [-bind_pure_comp, Program.bind_run, maybeStreamRequestedBlocks, request, syncRequest]

/-! ## The whole push -/

section Streamed

variable {records : List (Blake3Hash × Bytes)}

end Streamed

theorem client_of_authorized
    (hauth : isAuthorizedPeer push.peerIsLoopback server.token push.authToken = true) :
    push.store.syncRemoteFromRepo push.request (push.response server)
      = if computeRequiredHashes server.store push.viewHeads = ∅ then
          some ([], .ok (push.response server))
        else (push.store.streamRequiredChanges
            (computeRequiredHashes server.store push.viewHeads).sorted).map
          fun out => (out.1, out.2.map fun _ => push.response server) := by
  have hcaps : ¬ ((∃ cap ∈ push.request.requiredCapabilities,
      cap ∉ (push.response server).negotiatedCapabilities)
      ∨ (push.response server).rejectedRequiredCapabilities ≠ ∅) := by
    rw [response_of_authorized hauth]
    simp [request, syncRequest]
  have hstatus : ¬ (push.response server).status ≠ 0 := by
    simp [response_of_authorized hauth]
  have hrequired : (push.response server).requiredChanges
      = computeRequiredHashes server.store push.viewHeads := by
    rw [response_of_authorized hauth]
  rw [ObjectStore.syncRemoteFromRepo, if_neg hstatus, if_neg hcaps, hrequired]

section Authorized

variable (hauth : isAuthorizedPeer push.peerIsLoopback server.token push.authToken = true)

include hauth

end Authorized

end Push

def pushed : Push :=
  ⟨pulledStore, ⟨[("main", pulledChange.id)], List.nodup_singleton _⟩, none, true⟩

/-- **A gap below a head is never closed.** A push that names only heads that the server has sends
nothing, so the client succeeds, and the server refuses it and stays as it is. -/
theorem push_refused_of_gap [Crypto] [Ed25519] [Serde] {server : NativeServer} {push : Push}
    (hauth : isAuthorizedPeer push.peerIsLoopback server.token push.authToken = true)
    (hheads : ∀ entry ∈ push.viewHeads.entries, entry.2 ∈ server.store.keys)
    {entry : String × Blake3Hash} (hentry : entry ∈ push.viewHeads.entries) {a : Blake3Hash}
    (hreach : server.store.Reaches entry.2 a) (hgap : ¬ server.store.Verified a) :
    push.store.syncRemoteFromRepo push.request (push.response server)
        = some ([], .ok (push.response server))
      ∧ ∃ e, push.run server = some (.ok (push.response server), .error (.closure e), server) := by
  have hnone : computeRequiredHashes server.store push.viewHeads = ∅ := by
    refine Finset.eq_empty_of_forall_notMem fun id hid => ?_
    obtain ⟨hkey, entry, hentry, rfl⟩ := Push.mem_computeRequiredHashes.mp hid
    exact hkey (hheads entry hentry)
  have hclosure : ∃ e, ensureClosure (push.viewHeads.entries.map Prod.snd) server
      = some (.error (.closure e), server) := by
    rcases ObjectStore.search_reads (fun _ _ => ObjectStore.visitVerified_eq_ok_iff)
      (push.viewHeads.entries.map Prod.snd) with ⟨e, _, hrun, -⟩ | ⟨ids, -, -, hmem, hread⟩
    · exact ⟨e, by rw [ensureClosure, ObjectStore.ensureDependencyClosurePresent, hrun]⟩
    · exact absurd (hread a ((hmem a).mpr ⟨_, List.mem_map_of_mem hentry, hreach⟩)) hgap
  obtain ⟨e, hclosure⟩ := hclosure
  have hexchange : exchange (push.connection []) server = some (.error (.closure e), server) := by
    rw [Push.exchange_of_authorized hauth, if_neg (not_not.mpr hnone)]
    simp only [Program.bind_run, Program.pure_run, hclosure]
  have hclient : push.store.syncRemoteFromRepo push.request (push.response server)
      = some ([], .ok (push.response server)) := by
    rw [Push.client_of_authorized hauth, if_pos hnone]
  refine ⟨hclient, e, ?_⟩
  simp [Push.run, hclient, Push.handleConnection_of_exchange_error hexchange]

/-- A client that is cut off behind the first of two frames, and tries again. -/
theorem interrupted_push_refused :
    letI := Serde.sample [(recordedBytes, recordedChange), (pulledBytes, pulledChange)]
    letI := Crypto.ofBytes
    letI := Ed25519.sample
    ∃ server, handleConnection (pushed.connection [.payload pulledBytes]) ⟨∅, ∅, none⟩
        = some (.error .withoutEof, server)
      ∧ pushed.store.syncRemoteFromRepo pushed.request (pushed.response server)
        = some ([], .ok (pushed.response server))
      ∧ ∃ e, pushed.run server
        = some (.ok (pushed.response server), .error (.closure e), server) := by
  let _ := Serde.sample [(recordedBytes, recordedChange), (pulledBytes, pulledChange)]
  let _ := Crypto.ofBytes
  let _ := Ed25519.sample
  let store : ObjectStore := (∅ : ObjectStore).writeChangeBytes pulledChange.id pulledBytes
  have hread : store.readChange pulledChange.id = .ok pulledChange := by decide +kernel
  have hmissing : recordedChange.id ∉ store.keys := by decide +kernel
  have hgood : ObjectStore.GoodRecord (pulledChange.id, pulledBytes) :=
    ⟨pulledChange, by decide +kernel, rfl, by decide +kernel⟩
  have hingest : ingestFrames true [.payload pulledBytes] 0 0 ⟨∅, ∅, none⟩
      = some (.error .withoutEof, ⟨store, ∅, none⟩) := by
    rw [ObjectStore.ingestFrames_cons rfl hgood, if_neg (by decide), if_neg (by decide +kernel)]
    rfl
  have hexchange : exchange (pushed.connection [.payload pulledBytes]) ⟨∅, ∅, none⟩
      = some (.error .withoutEof, ⟨store, ∅, none⟩) := by
    rw [Push.exchange_of_authorized rfl, if_pos (by decide +kernel), Program.bind_run,
      ingestPayloadStream, Program.bind_run, hingest]
  refine ⟨_, Push.handleConnection_of_exchange_error hexchange,
    push_refused_of_gap rfl (by decide +kernel)
    (List.mem_singleton_self _) (.single ⟨pulledChange, hread, Finset.mem_singleton_self _⟩) ?_⟩
  rintro ⟨c, hc, -⟩
  exact hmissing (ObjectStore.mem_keys_of_readChange hc)

end ArcVcs
