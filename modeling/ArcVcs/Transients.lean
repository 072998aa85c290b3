import ArcVcs.Requests

/-!
# Transient identities

A request collapses the transient authors of its own changes, and what depends on them. What it
names without sending it, it joins to the view as it is: a head, or a dependency on the original id
of a change that an earlier request has collapsed. So the history of the views stays free of
transient authors exactly when what the accepted requests name in this way is.
-/

namespace ArcVcs

/-- No change in the history of `h` has a transient author. -/
def Untainted (W : Set Change) (h : Blake3Hash) : Prop :=
  ∀ c ∈ W, LeadsTo W h c.id → isTransientAuthor c.author = false

def TransientFree {σ : Type} (W : Set Change) (disk : ServerDisk σ) : Prop :=
  AllHeads (Untainted W) disk

/-- What the heads of an accepted request lead to, outside the changes it sends, is free of
transient authors. -/
def NamesUntainted (W : Set Change) : HttpEvent → Prop
  | .accepted _ payload => ∀ h ∈ payload.viewHeads, ∀ u,
      LeadsTo payload.changeSet h u → u ∉ payload.ids → Untainted W u
  | _ => True

theorem Untainted.of_leadsTo {W : Set Change} {a b : Blake3Hash} (h : Untainted W a)
    (hab : LeadsTo W a b) : Untainted W b := fun c hc hbc => h c hc (hab.trans hbc)

section Request

variable {σ : Type} [Crypto] [Serde] {write : σ → Change → Except Unit σ} {app : AppState}
  {payload : DeltaPayload} {disk disk' : ServerDisk σ} {rewritten : FMap Blake3Hash Blake3Hash}
  {order : List Change} {W : Set Change}

namespace Processed

variable (h : Processed write app payload disk disk' rewritten order)
  (hmade : ∀ c ∈ payload.changes, distributed app rewritten c ∈ W)

include h hmade

omit [Serde] in
theorem leadsTo_remap {a b : Blake3Hash} (hab : LeadsTo payload.changeSet a b) :
    LeadsTo W (remap rewritten a) (remap rewritten b) := by
  refine Relation.ReflTransGen.lift (remap rewritten) (fun x y hxy => ?_) _ _ hab
  obtain ⟨c, hc, rfl, hy⟩ := hxy
  refine ⟨distributed app rewritten c, hmade c hc, distributed_id (fun _ => h.lookup_eq) hc, ?_⟩
  rw [distributed_deps (fun _ => h.lookup_eq) hc]
  exact Finset.mem_image_of_mem _ hy

omit [Serde] in
theorem leadsTo_cases (hW : Circulating W) {a x : Blake3Hash}
    (hx : LeadsTo W (remap rewritten a) x) :
    (∃ c ∈ payload.changes, LeadsTo payload.changeSet a c.id ∧ x = remap rewritten c.id)
      ∨ ∃ u, LeadsTo payload.changeSet a u ∧ u ∉ payload.ids ∧ LeadsTo W u x := by
  have hmem : ∀ b, LeadsTo payload.changeSet a b →
      (∃ c ∈ payload.changes, LeadsTo payload.changeSet a c.id
          ∧ remap rewritten b = remap rewritten c.id)
        ∨ ∃ u, LeadsTo payload.changeSet a u ∧ u ∉ payload.ids
          ∧ LeadsTo W u (remap rewritten b) := by
    intro b hb
    by_cases hin : b ∈ payload.ids
    · obtain ⟨c, hc, rfl⟩ := List.mem_map.mp (DeltaPayload.mem_ids.mp hin)
      exact .inl ⟨c, hc, hb, rfl⟩
    · rw [h.remap_of_notMem hin]
      exact .inr ⟨b, hb, hin, .refl⟩
  induction hx with
  | refl => exact hmem a .refl
  | @tail x y _ hxy ih =>
      rcases ih with ⟨c, hc, hac, rfl⟩ | ⟨u, hau, hout, hux⟩
      · obtain ⟨c', hc', hid, hy⟩ := hxy
        have hid' := distributed_id (fun _ => h.lookup_eq) hc
        have hpayload := hW.payload_eq (hmade c hc) hc' (hid'.trans hid.symm)
        rw [← Change.deps_eq_of_payload_eq hpayload,
          distributed_deps (fun _ => h.lookup_eq) hc] at hy
        obtain ⟨b, hb, rfl⟩ := Finset.mem_image.mp hy
        exact hmem b (hac.tail ⟨c, hc, rfl, hb⟩)
      · exact .inr ⟨u, hau, hout, hux.tail hxy⟩

omit [Serde] in
/-- **A renamed head has no transient author in its history exactly when nothing that it leads
to outside the payload has.** -/
theorem untainted_remap_iff (hW : Circulating W) {a : Blake3Hash} :
    Untainted W (remap rewritten a)
      ↔ ∀ u, LeadsTo payload.changeSet a u → u ∉ payload.ids → Untainted W u := by
  constructor
  · intro hclean u hau hout
    have hlead := h.leadsTo_remap hmade hau
    rw [h.remap_of_notMem hout] at hlead
    exact hclean.of_leadsTo hlead
  · intro houtside c hc hlead
    rcases h.leadsTo_cases hmade hW hlead with ⟨b, hb, -, hid⟩ | ⟨u, hau, hout, huc⟩
    · have hid' := distributed_id (fun _ => h.lookup_eq) hb
      have hauthor := congrArg IdPayload.author
        (hW.payload_eq hc (hmade b hb) (hid.trans hid'.symm))
      exact (congrArg isTransientAuthor hauthor).trans (h.not_transient hb)
    · exact houtside u hau hout c hc huc

end Processed

variable [Ed25519]

theorem HttpStep.transientFree_iff (hW : Circulating W) {event : HttpEvent}
    (hdisk : TransientFree W disk) (hstep : HttpStep write app W disk event disk') :
    TransientFree W disk' ↔ NamesUntainted W event := by
  cases hstep with
  | putBlob hash bytes =>
      rw [TransientFree, AllHeads, ServerDisk.putBlob_views]
      exact iff_of_true hdisk trivial
  | accepted hsent hrun hmade =>
      obtain ⟨-, ⟨disk₁, order, hprocessed, -⟩, -⟩ := postSync_eq_ok hrun
      rw [TransientFree, allHeads_postSync_iff hdisk hrun]
      exact forall₂_congr fun a _ => hprocessed.untainted_remap_iff hmade hW
  | refused hsent hrun =>
      refine iff_of_true ?_ trivial
      exact postSync_error_keeps hrun (fun _ c _ => storeChange_keeps fun _ _ hd _ => hd) hdisk

/-- **The accepted history stays free of transient authors** in every state of a run from an
empty repository exactly when no accepted request names, outside the changes that it sends, a
change with a transient author in its history. -/
theorem transientFree_run_iff (hW : Circulating W) {start : ServerDisk σ} (hstart : start.views = ∅)
    {events : List HttpEvent} :
    Trace (fun disk event disk' => HttpStep write app W disk event disk' ∧ TransientFree W disk')
        start events disk
      ↔ Trace (fun disk event disk' => HttpStep write app W disk event disk'
          ∧ NamesUntainted W event) start events disk := by
  refine Trace.guard_iff ?_ fun disk event disk' hdisk hstep => hstep.transientFree_iff hW hdisk
  intro view heads hlook
  rw [hstart] at hlook
  cases hlook

end Request

def keepAll (log : List Change) (c : Change) : Except Unit (List Change) := .ok (log ++ [c])

/-- The transient root of a payload is collapsed, and so is the change of a human on top of it. -/
theorem transientFree_one_request :
    letI := Serde.sample []
    letI := Crypto.ofBytes
    letI := Ed25519.sample
    let app : AppState := ⟨.server "s" 3, 3⟩
    let payload : DeltaPayload := ⟨[dependentChange, transientChange], {dependentChange.id}⟩
    let W : Set Change := {c | c ∈ storedAll app ∅ [transientChange, dependentChange]}
    ∃ disk, HttpStep keepAll app W ⟨[], ∅, ∅⟩ (.accepted "main" payload) disk
      ∧ TransientFree W disk := by
  intro app payload W
  let _ := Serde.sample []
  let _ := Crypto.ofBytes
  let _ := Ed25519.sample
  have hW : Circulating W := circulating_of_nodup (by decide +kernel) (by decide +kernel)
  obtain ⟨disk, hstep, -⟩ : ∃ disk,
      HttpStep keepAll app W ⟨[], ∅, ∅⟩ (.accepted "main" payload) disk ∧ true = true :=
    exists_accepted (P := fun _ => true) (by decide +kernel) (by decide +kernel)
  have hdeps : ∀ c ∈ payload.changes, c.deps ⊆ payload.ids := by decide +kernel
  have hheads : payload.viewHeads ⊆ payload.ids := by decide +kernel
  have hnames : NamesUntainted W (.accepted "main" payload) := by
    intro h hh u hlead hout
    refine absurd ?_ hout
    induction hlead with
    | refl => exact hheads hh
    | tail _ hlast _ =>
        obtain ⟨c, hc, -, hdep⟩ := hlast
        exact hdeps c hc hdep
  have hguarded : Trace (fun disk event disk' => HttpStep keepAll app W disk event disk'
      ∧ NamesUntainted W event) ⟨[], ∅, ∅⟩ [.accepted "main" payload] disk :=
    .snoc (.nil _) ⟨hstep, hnames⟩
  have hrun := (transientFree_run_iff hW rfl).mpr hguarded
  exact ⟨disk, hstep, hrun.last (fun _ _ hlook => by cases hlook)⟩

/-- The server's own store accepts a head that names a transient change. A store that keeps what it
is given also accepts a human change on the original id of a change that an earlier request has
collapsed. -/
theorem transient_enters_history :
    letI := Serde.sample []
    letI := Crypto.ofBytes
    letI := Ed25519.sample
    let app : AppState := ⟨.server "s" 3, 3⟩
    let W : Set Change := {c | c ∈ storedAll app ∅ [transientChange] ++ [dependentChange]}
    Circulating W ∧ transientChange.verifySignature = true
      ∧ (∃ disk, Trace (HttpStep writeChange app W) ⟨∅, ∅, ∅⟩
          [.accepted "main" ⟨[], {transientChange.id}⟩] disk ∧ ¬ TransientFree W disk)
      ∧ ∃ disk, Trace (HttpStep keepAll app W) ⟨[], ∅, ∅⟩
          [.accepted "main" ⟨[transientChange], {transientChange.id}⟩,
            .accepted "main" ⟨[dependentChange], {dependentChange.id}⟩] disk
        ∧ ¬ TransientFree W disk := by
  intro app W
  let _ := Serde.sample []
  let _ := Crypto.ofBytes
  let _ := Ed25519.sample
  have hW : Circulating W := circulating_of_nodup (by decide +kernel) (by decide +kernel)
  have hroot : transientChange ∈ W := List.mem_cons_self
  have htainted : ¬ Untainted W transientChange.id := fun h => by cases h _ hroot .refl
  refine ⟨hW, by decide +kernel, ?_, ?_⟩
  · obtain ⟨disk, hstep, hhead⟩ : ∃ disk, HttpStep writeChange app W ⟨∅, ∅, ∅⟩
          (.accepted "main" ⟨[], {transientChange.id}⟩) disk
        ∧ decide (transientChange.id ∈ loadHeads disk "main") = true :=
      exists_accepted (by simp) (by decide +kernel)
    refine ⟨disk, .snoc (.nil _) hstep, fun hfree => htainted ?_⟩
    exact hfree.of_mem_loadHeads (of_decide_eq_true hhead)
  · obtain ⟨disk₁, hstep₁, hrun₂⟩ : ∃ disk₁, HttpStep keepAll app W ⟨[], ∅, ∅⟩
          (.accepted "main" ⟨[transientChange], {transientChange.id}⟩) disk₁
        ∧ (postSync keepAll app "main" ⟨[dependentChange], {dependentChange.id}⟩ disk₁).any
          (fun out => out.1.toOption.any fun response => decide (∀ c ∈ [dependentChange],
              distributed app response.rewrittenMap c
                ∈ storedAll app ∅ [transientChange] ++ [dependentChange])
            && decide (dependentChange.id ∈ loadHeads out.2 "main")) = true :=
      exists_accepted (by decide +kernel) (by decide +kernel)
    obtain ⟨disk₂, hstep₂, hhead⟩ := exists_accepted (P := fun disk =>
      decide (dependentChange.id ∈ loadHeads disk "main")) (by decide +kernel) hrun₂
    refine ⟨disk₂, .snoc (.snoc (.nil _) hstep₁) hstep₂, fun hfree => htainted ?_⟩
    have hmem : dependentChange ∈ W := by
      change dependentChange ∈ storedAll app ∅ [transientChange] ++ [dependentChange]
      decide +kernel
    have hdep : DependsIn W dependentChange.id transientChange.id :=
      ⟨dependentChange, hmem, rfl, Finset.mem_singleton_self _⟩
    exact Untainted.of_leadsTo (hfree.of_mem_loadHeads (of_decide_eq_true hhead)) (.single hdep)

end ArcVcs
