import Mathlib.Data.List.Basic
import Mathlib.Data.List.Perm.Basic
import Mathlib.Order.Lattice

/-!
# Bubble sort with elements that change

Passes over a list that exchange neighbours in the wrong order, until a pass exchanges nothing. An
exchange may change the two elements, but not the tags by which they are compared. As many passes
as there are elements sort the list, and the pairs that they exchange are the inversions.
-/

namespace BubbleSort

variable {α β γ : Type*} [LinearOrder γ] (tag : α → β) (rank : β → γ)
  (exchange : α → α → α × α)

/-! ## The sort -/

/-- One pass, with the element that is carried along. -/
def pass (current : α) : List α → List α
  | [] => [current]
  | next :: rest =>
      if rank (tag current) ≤ rank (tag next) then current :: pass next rest
      else (exchange current next).1 :: pass (exchange current next).2 rest

def exchanges (current : α) : List α → List (α × α)
  | [] => []
  | next :: rest =>
      if rank (tag current) ≤ rank (tag next) then exchanges next rest
      else (current, next) :: exchanges (exchange current next).2 rest

/-- Passes until one exchanges nothing, at most `fuel` of them. -/
def sort : ℕ → List α → List α
  | 0, l => l
  | _ + 1, [] => []
  | fuel + 1, a :: l =>
      if (exchanges tag rank exchange a l).isEmpty then pass tag rank exchange a l
      else sort fuel (pass tag rank exchange a l)

/-- The pairs that all passes exchange. -/
def allExchanges : ℕ → List α → List (α × α)
  | 0, _ => []
  | _ + 1, [] => []
  | fuel + 1, a :: l =>
      exchanges tag rank exchange a l ++ allExchanges fuel (pass tag rank exchange a l)

/-- The first element is to come after the second one. -/
def Inverted (rank : β → γ) (x y : β) : List β → Prop
  | [] => False
  | a :: l => (x = a ∧ y ∈ l ∧ rank y < rank x) ∨ Inverted rank x y l

/-- The exchanged elements keep their tags. -/
structure KeepsTags : Prop where
  fst : ∀ l r, tag (exchange l r).1 = tag r
  snd : ∀ l r, tag (exchange l r).2 = tag l

/-- The last `k` elements are in their places. -/
def Settled (k : ℕ) (l : List α) : Prop :=
  ∃ front back, l = front ++ back ∧ back.length = k
    ∧ back.Pairwise (fun a b => rank (tag a) ≤ rank (tag b))
    ∧ ∀ a ∈ front, ∀ b ∈ back, rank (tag a) ≤ rank (tag b)

variable {tag rank exchange} {a : α} {l : List α}

/-! ## One pass -/

variable (rank) in
theorem map_pass_perm (h : KeepsTags tag exchange) (a : α) (l : List α) :
    ((pass tag rank exchange a l).map tag).Perm ((a :: l).map tag) := by
  induction l generalizing a with
  | nil => exact .refl _
  | cons next rest ih =>
      rw [pass]
      split_ifs
      · exact (ih next).cons _
      · rw [List.map_cons, h.fst]
        refine ((ih _).cons _).trans ?_
        rw [List.map_cons, h.snd]
        exact .swap _ _ _

theorem length_pass (h : KeepsTags tag exchange) (a : α) (l : List α) :
    (pass tag rank exchange a l).length = l.length + 1 := by
  simpa using (map_pass_perm rank h a l).length_eq

theorem exchanges_eq_nil_iff :
    exchanges tag rank exchange a l = []
      ↔ (a :: l).IsChain fun a b => rank (tag a) ≤ rank (tag b) := by
  induction l generalizing a with
  | nil => simp [exchanges]
  | cons next rest ih =>
      rw [exchanges, List.isChain_cons_cons]
      split_ifs with hle
      · simp [ih, hle]
      · simp [hle]

theorem pass_of_isChain (h : (a :: l).IsChain fun a b => rank (tag a) ≤ rank (tag b)) :
    pass tag rank exchange a l = a :: l := by
  induction l generalizing a with
  | nil => rfl
  | cons next rest ih =>
      obtain ⟨hle, hrest⟩ := List.isChain_cons_cons.mp h
      rw [pass, if_pos hle, ih hrest]

variable (rank) in
theorem pass_eq_append (h : KeepsTags tag exchange) (a : α) (l : List α) :
    ∃ init last, pass tag rank exchange a l = init ++ [last]
      ∧ ∀ b ∈ init, rank (tag b) ≤ rank (tag last) := by
  induction l generalizing a with
  | nil => exact ⟨[], a, rfl, by simp⟩
  | cons next rest ih =>
      rw [pass]
      have hmax {c : α} {init : List α} {last : α}
          (hpass : pass tag rank exchange c rest = init ++ [last])
          (hle : ∀ b ∈ init, rank (tag b) ≤ rank (tag last)) : rank (tag c) ≤ rank (tag last) := by
        have hmem : tag c ∈ (init ++ [last]).map tag := by
          rw [← hpass]
          exact (map_pass_perm rank h c rest).mem_iff.mpr List.mem_cons_self
        obtain ⟨b, hb, hbc⟩ := List.mem_map.mp hmem
        rw [← hbc]
        rcases List.mem_append.mp hb with hb | hb
        · exact hle b hb
        · exact (congrArg (rank ∘ tag) (List.mem_singleton.mp hb)).le
      split_ifs with hcmp
      · obtain ⟨init, last, hpass, hle⟩ := ih next
        refine ⟨a :: init, last, by rw [hpass]; rfl, ?_⟩
        exact List.forall_mem_cons.mpr ⟨hcmp.trans (hmax hpass hle), hle⟩
      · obtain ⟨init, last, hpass, hle⟩ := ih (exchange a next).2
        refine ⟨(exchange a next).1 :: init, last, by rw [hpass]; rfl, ?_⟩
        refine List.forall_mem_cons.mpr ⟨?_, hle⟩
        have hcarried := hmax hpass hle
        rw [h.snd] at hcarried
        rw [h.fst]
        exact (not_le.mp hcmp).le.trans hcarried

theorem pass_append (h : KeepsTags tag exchange) {back : List α}
    (hback : back.Pairwise fun a b => rank (tag a) ≤ rank (tag b))
    (hle : ∀ b ∈ a :: l, ∀ c ∈ back, rank (tag b) ≤ rank (tag c)) :
    pass tag rank exchange a (l ++ back) = pass tag rank exchange a l ++ back := by
  induction l generalizing a with
  | nil =>
      refine pass_of_isChain (List.Pairwise.isChain ?_)
      exact List.pairwise_cons.mpr ⟨hle a List.mem_cons_self, hback⟩
  | cons next rest ih =>
      rw [List.cons_append, pass, pass]
      obtain ⟨ha, hrest⟩ := List.forall_mem_cons.mp hle
      split_ifs
      · rw [ih hrest]
        rfl
      · rw [ih]
        · rfl
        · refine List.forall_mem_cons.mpr ⟨?_, (List.forall_mem_cons.mp hrest).2⟩
          rw [h.snd]
          exact ha

theorem Settled.pass (h : KeepsTags tag exchange) {k : ℕ} (hl : Settled tag rank k (a :: l))
    (hk : k ≤ l.length) : Settled tag rank (k + 1) (pass tag rank exchange a l) := by
  obtain ⟨front, back, heq, hlen, hback, hle⟩ := hl
  cases front with
  | nil =>
      have hlen' := congrArg List.length heq
      simp only [List.length_cons, List.nil_append] at hlen'
      omega
  | cons b front =>
      obtain ⟨rfl, hl⟩ := List.cons.inj heq
      obtain ⟨init, last, hpass, hmax⟩ := pass_eq_append rank h a front
      have hmem {c : α} (hc : c ∈ init ++ [last]) :
          ∀ d ∈ back, rank (tag c) ≤ rank (tag d) := by
        have htag : tag c ∈ (a :: front).map tag := by
          refine (map_pass_perm rank h a front).mem_iff.mp ?_
          rw [hpass]
          exact List.mem_map_of_mem hc
        obtain ⟨b, hb, hbc⟩ := List.mem_map.mp htag
        rw [← hbc]
        exact hle b hb
      refine ⟨init, last :: back, ?_, by rw [List.length_cons, hlen], ?_, fun c hc d hd => ?_⟩
      · rw [hl]
        refine (pass_append h hback hle).trans ?_
        rw [hpass, List.append_assoc]
        rfl
      · exact List.pairwise_cons.mpr ⟨hmem (by simp), hback⟩
      · rcases List.mem_cons.mp hd with rfl | hd
        · exact hmax c hc
        · exact hmem (List.mem_append_left _ hc) d hd

theorem settled_zero (l : List α) : Settled tag rank 0 l :=
  ⟨l, [], by simp, rfl, .nil, by simp⟩

theorem Settled.pairwise {k : ℕ} (h : Settled tag rank k l) (hk : l.length ≤ k) :
    l.Pairwise fun a b => rank (tag a) ≤ rank (tag b) := by
  obtain ⟨front, back, rfl, hlen, hback, -⟩ := h
  rw [List.length_append] at hk
  have hfront : front = [] := List.length_eq_zero_iff.mp (by omega)
  rwa [hfront]

/-! ## The whole sort -/

theorem pairwise_of_isChain (h : l.IsChain fun a b => rank (tag a) ≤ rank (tag b)) :
    l.Pairwise fun a b => rank (tag a) ≤ rank (tag b) := by
  have : IsTrans α fun a b => rank (tag a) ≤ rank (tag b) := ⟨fun _ _ _ => le_trans⟩
  exact h.pairwise

variable (rank) in
theorem map_sort_perm (h : KeepsTags tag exchange) (fuel : ℕ) (l : List α) :
    ((sort tag rank exchange fuel l).map tag).Perm (l.map tag) := by
  induction fuel generalizing l with
  | zero => exact .refl _
  | succ fuel ih =>
      cases l with
      | nil => exact .refl _
      | cons a l =>
          rw [sort]
          split_ifs
          · exact map_pass_perm rank h a l
          · exact (ih _).trans (map_pass_perm rank h a l)

/-- **A pass for each element sorts the list.** -/
theorem pairwise_sort_of_settled (h : KeepsTags tag exchange) {fuel k : ℕ} {l : List α}
    (hl : Settled tag rank k l) (hfuel : l.length ≤ k + fuel) :
    (sort tag rank exchange fuel l).Pairwise fun a b => rank (tag a) ≤ rank (tag b) := by
  induction fuel generalizing k l with
  | zero => exact hl.pairwise hfuel
  | succ fuel ih =>
      cases l with
      | nil => exact .nil
      | cons a l =>
          rw [sort]
          by_cases hnil : exchanges tag rank exchange a l = []
          · rw [if_pos (by rw [hnil]; rfl)]
            have hchain := exchanges_eq_nil_iff.mp hnil
            rw [pass_of_isChain hchain]
            exact pairwise_of_isChain hchain
          · rw [if_neg (by simpa using hnil)]
            have hk : k ≤ l.length := by
              by_contra hk
              exact hnil (exchanges_eq_nil_iff.mpr
                (hl.pairwise (by rw [List.length_cons]; omega)).isChain)
            refine ih (hl.pass h hk) ?_
            rw [length_pass h]
            rw [List.length_cons] at hfuel
            omega

theorem pairwise_sort (h : KeepsTags tag exchange) (l : List α) :
    (sort tag rank exchange l.length l).Pairwise fun a b => rank (tag a) ≤ rank (tag b) :=
  pairwise_sort_of_settled h (settled_zero l) (by omega)

theorem map_sort_eq (h : KeepsTags tag exchange) {l : List α} {target : List β}
    (hperm : (l.map tag).Perm target) (hsorted : target.Pairwise fun x y => rank x ≤ rank y)
    (hinj : ∀ x ∈ target, ∀ y ∈ target, rank x = rank y → x = y) :
    (sort tag rank exchange l.length l).map tag = target := by
  have hperm' := (map_sort_perm rank h l.length l).trans hperm
  refine hperm'.eq_of_pairwise (fun x y hx hy hxy hyx => ?_)
    (List.pairwise_map.mpr (pairwise_sort h l)) hsorted
  exact hinj x (hperm'.mem_iff.mp hx) y hy (le_antisymm hxy hyx)

/-! ## Inversions -/

theorem not_inverted_of_pairwise {x y : β} {l : List β}
    (h : l.Pairwise fun a b => rank a ≤ rank b) : ¬ Inverted rank x y l := by
  induction l with
  | nil => exact id
  | cons a l ih =>
      obtain ⟨ha, hl⟩ := List.pairwise_cons.mp h
      rintro (⟨rfl, hy, hlt⟩ | hinv)
      · exact absurd (ha y hy) hlt.not_ge
      · exact ih hl hinv

theorem inverted_iff_pass (h : KeepsTags tag exchange) {x y : β} (a : α) (l : List α) :
    Inverted rank x y ((a :: l).map tag)
      ↔ (x, y) ∈ (exchanges tag rank exchange a l).map (Prod.map tag tag)
        ∨ Inverted rank x y ((pass tag rank exchange a l).map tag) := by
  induction l generalizing a with
  | nil => simp [exchanges, pass]
  | cons next rest ih =>
      have hperm (c : α) : y ∈ (pass tag rank exchange c rest).map tag
          ↔ y = tag c ∨ y ∈ rest.map tag := by
        rw [(map_pass_perm rank h c rest).mem_iff, List.map_cons, List.mem_cons]
      rw [exchanges, pass]
      split_ifs with hle
      · have hnext := ih next
        rw [List.map_cons] at hnext
        rw [List.map_cons, List.map_cons, List.map_cons, Inverted, hnext, Inverted, hperm,
          List.mem_cons]
        tauto
      · have hcarried := ih (exchange a next).2
        rw [List.map_cons, h.snd] at hcarried
        have hlt := not_le.mp hle
        rw [List.map_cons, List.map_cons, List.map_cons, List.map_cons, Inverted, Inverted,
          Inverted, h.fst, hperm, h.snd]
        rw [Inverted] at hcarried
        simp only [List.mem_cons, Prod.map_apply, Prod.mk.injEq]
        have hpair : x = tag a ∧ y = tag next → rank y < rank x := by
          rintro ⟨rfl, rfl⟩
          exact hlt
        have hturned : x = tag next ∧ y = tag a → ¬ rank y < rank x := by
          rintro ⟨rfl, rfl⟩
          exact hlt.not_gt
        constructor
        · rintro (⟨hx, hy | hy, hyx⟩ | ⟨hx, hy, hyx⟩ | hrest)
          · exact .inl (.inl ⟨hx, hy⟩)
          · exact (hcarried.mp (.inl ⟨hx, hy, hyx⟩)).imp .inr .inr
          · exact .inr (.inl ⟨hx, .inr hy, hyx⟩)
          · exact (hcarried.mp (.inr hrest)).imp .inr .inr
        · rintro ((⟨hx, hy⟩ | hexch) | ⟨hx, hy | hy, hyx⟩ | hpass)
          · exact .inl ⟨hx, .inl hy, hpair ⟨hx, hy⟩⟩
          · exact (hcarried.mpr (.inl hexch)).imp (fun ⟨hx, hy, hyx⟩ => ⟨hx, .inr hy, hyx⟩) .inr
          · exact absurd hyx (hturned ⟨hx, hy⟩)
          · exact .inr (.inl ⟨hx, hy, hyx⟩)
          · exact (hcarried.mpr (.inr hpass)).imp (fun ⟨hx, hy, hyx⟩ => ⟨hx, .inr hy, hyx⟩) .inr

theorem allExchanges_iff_of_settled (h : KeepsTags tag exchange) {fuel k : ℕ} {l : List α}
    (hl : Settled tag rank k l) (hfuel : l.length ≤ k + fuel) (x y : β) :
    (x, y) ∈ (allExchanges tag rank exchange fuel l).map (Prod.map tag tag)
      ↔ Inverted rank x y (l.map tag) := by
  have hsorted {l : List α} (hl : l.Pairwise fun a b => rank (tag a) ≤ rank (tag b)) :
      ¬ Inverted rank x y (l.map tag) := not_inverted_of_pairwise (List.pairwise_map.mpr hl)
  induction fuel generalizing k l with
  | zero =>
      rw [allExchanges]
      exact iff_of_false (by simp) (hsorted (hl.pairwise hfuel))
  | succ fuel ih =>
      cases l with
      | nil => exact iff_of_false (by simp [allExchanges]) (hsorted .nil)
      | cons a l =>
          rw [allExchanges, List.map_append, List.mem_append, inverted_iff_pass h]
          refine or_congr_right ?_
          by_cases hk : k ≤ l.length
          · refine ih (hl.pass h hk) ?_
            rw [length_pass h]
            rw [List.length_cons] at hfuel
            omega
          · have hpairwise := hl.pairwise (by rw [List.length_cons]; omega)
            rw [pass_of_isChain hpairwise.isChain]
            refine ih hl ?_
            rw [List.length_cons]
            omega

variable (rank) in
/-- **The exchanged pairs are the inversions.** -/
theorem allExchanges_iff (h : KeepsTags tag exchange) (l : List α) (x y : β) :
    (x, y) ∈ (allExchanges tag rank exchange l.length l).map (Prod.map tag tag)
      ↔ Inverted rank x y (l.map tag) :=
  allExchanges_iff_of_settled h (settled_zero l) (by omega) x y

theorem allExchanges_eq_nil (fuel : ℕ)
    (h : l.IsChain fun a b => rank (tag a) ≤ rank (tag b)) :
    allExchanges tag rank exchange fuel l = [] := by
  induction fuel with
  | zero => rfl
  | succ fuel ih =>
      cases l with
      | nil => rfl
      | cons a l =>
          rw [allExchanges, exchanges_eq_nil_iff.mpr h, pass_of_isChain h, ih, List.nil_append]

/-! ## What becomes of an element -/

/-- The tag is that of an element of one of the pairs. -/
def Moved (tag : α → β) (t : β) (pairs : List (α × α)) : Prop :=
  ∃ p ∈ pairs, tag p.1 = t ∨ tag p.2 = t

/-- The element comes out of an exchange. -/
def IsExchanged (exchange : α → α → α × α) (z : α) : Prop :=
  ∃ left right, z = (exchange left right).1 ∨ z = (exchange left right).2

theorem not_moved_nil (t : β) : ¬ Moved tag t ([] : List (α × α)) := by
  rintro ⟨p, hp, -⟩
  exact List.not_mem_nil hp

theorem moved_cons_iff {t : β} {p : α × α} {pairs : List (α × α)} :
    Moved tag t (p :: pairs) ↔ (tag p.1 = t ∨ tag p.2 = t) ∨ Moved tag t pairs := by
  simp [Moved]

theorem moved_append_iff {t : β} {pairs pairs' : List (α × α)} :
    Moved tag t (pairs ++ pairs') ↔ Moved tag t pairs ∨ Moved tag t pairs' := by
  simp only [Moved, List.mem_append, or_and_right, exists_or]

theorem mem_of_moved (h : KeepsTags tag exchange) {t : β} (a : α) (l : List α)
    (hmoved : Moved tag t (exchanges tag rank exchange a l)) : t ∈ (a :: l).map tag := by
  induction l generalizing a with
  | nil => exact absurd hmoved (not_moved_nil t)
  | cons next rest ih =>
      rw [exchanges] at hmoved
      split_ifs at hmoved with hle
      · exact .tail _ (ih next hmoved)
      · rcases moved_cons_iff.mp hmoved with (rfl | rfl) | hmoved
        · simp
        · simp
        · have hmem := ih _ hmoved
          rw [List.map_cons, h.snd, List.mem_cons] at hmem
          rcases hmem with rfl | hmem
          · simp
          · exact .tail _ (.tail _ hmem)

/-- After a pass an element is as it was and has not been moved, or it comes out of an
exchange. -/
theorem mem_pass_cases (h : KeepsTags tag exchange) {z : α} (a : α) (l : List α)
    (hnodup : ((a :: l).map tag).Nodup) (hz : z ∈ pass tag rank exchange a l) :
    (z ∈ a :: l ∧ ¬ Moved tag (tag z) (exchanges tag rank exchange a l))
      ∨ (IsExchanged exchange z ∧ Moved tag (tag z) (exchanges tag rank exchange a l)) := by
  induction l generalizing a with
  | nil => exact .inl ⟨hz, not_moved_nil _⟩
  | cons next rest ih =>
      obtain ⟨ha, hrest⟩ := List.nodup_cons.mp hnodup
      rw [pass] at hz
      rw [exchanges]
      split_ifs at hz ⊢ with hle
      · rcases List.mem_cons.mp hz with rfl | hz
        · exact .inl ⟨List.mem_cons_self, fun hmoved => ha (mem_of_moved h next rest hmoved)⟩
        · exact (ih next hrest hz).imp_left fun hkept => ⟨.tail _ hkept.1, hkept.2⟩
      · rcases List.mem_cons.mp hz with rfl | hz
        · refine .inr ⟨⟨a, next, .inl rfl⟩, moved_cons_iff.mpr (.inl (.inr ?_))⟩
          exact (h.fst a next).symm
        · obtain ⟨hnext, hnodup'⟩ := List.nodup_cons.mp hrest
          have hcarried : (((exchange a next).2 :: rest).map tag).Nodup := by
            rw [List.map_cons, h.snd]
            exact List.nodup_cons.mpr ⟨fun hmem => ha (.tail _ hmem), hnodup'⟩
          rcases ih _ hcarried hz with ⟨hmem, hkept⟩ | ⟨hexchanged, hmoved⟩
          · rcases List.mem_cons.mp hmem with rfl | hmem
            · refine .inr ⟨⟨a, next, .inr rfl⟩, moved_cons_iff.mpr (.inl (.inl ?_))⟩
              exact (h.snd a next).symm
            · refine .inl ⟨.tail _ (.tail _ hmem), fun hmoved => ?_⟩
              have htag := List.mem_map_of_mem (f := tag) hmem
              rcases moved_cons_iff.mp hmoved with (heq | heq) | hmoved
              · exact ha (.tail _ (heq ▸ htag))
              · exact hnext (heq ▸ htag)
              · exact hkept hmoved
          · exact .inr ⟨hexchanged, moved_cons_iff.mpr (.inr hmoved)⟩

/-- **After the sort** an element is as it was if no exchange moved it, and otherwise comes out of
an exchange. -/
theorem mem_sort_cases (h : KeepsTags tag exchange) {z : α} (fuel : ℕ) (l : List α)
    (hnodup : (l.map tag).Nodup) (hz : z ∈ sort tag rank exchange fuel l) :
    (z ∈ l ∧ ¬ Moved tag (tag z) (allExchanges tag rank exchange fuel l))
      ∨ (IsExchanged exchange z ∧ Moved tag (tag z) (allExchanges tag rank exchange fuel l)) := by
  induction fuel generalizing l with
  | zero => exact .inl ⟨hz, not_moved_nil _⟩
  | succ fuel ih =>
      cases l with
      | nil => exact .inl ⟨hz, not_moved_nil _⟩
      | cons a l =>
          rw [sort] at hz
          rw [allExchanges]
          simp only [moved_append_iff]
          split_ifs at hz with hempty
          · have hchain := exchanges_eq_nil_iff.mp (List.isEmpty_iff.mp hempty)
            have hrest : allExchanges tag rank exchange fuel (a :: l) = [] :=
              allExchanges_eq_nil fuel hchain
            rw [pass_of_isChain hchain] at hz ⊢
            rw [List.isEmpty_iff.mp hempty, hrest]
            exact .inl ⟨hz, fun hmoved => hmoved.elim (not_moved_nil _) (not_moved_nil _)⟩
          · have hnodup' := (map_pass_perm rank h a l).nodup_iff.mpr hnodup
            rcases ih _ hnodup' hz with ⟨hmem, hkept⟩ | ⟨hexchanged, hmoved⟩
            · refine (mem_pass_cases h a l hnodup hmem).imp ?_ ?_
              · exact fun hpass => ⟨hpass.1, fun hmoved => hmoved.elim hpass.2 hkept⟩
              · exact fun hpass => ⟨hpass.1, .inl hpass.2⟩
            · exact .inr ⟨hexchanged, .inr hmoved⟩

end BubbleSort
