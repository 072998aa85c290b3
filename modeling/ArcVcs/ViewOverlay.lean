import ArcVcs.ConflictSides

/-!
# Views with an overlay

`merge_sorted_overlay` merges two sorted lists and keeps one item of each key that both have.
`load_views_with_overlay` sorts the persisted views and the views in memory by name and merges them.
-/

namespace ArcVcs

inductive OverlayPrecedence where
  | left
  | right
deriving DecidableEq

/-- What is kept of two items with one key. -/
def OverlayPrecedence.pick {T : Type*} : OverlayPrecedence → T → T → T
  | .left, l, _ => l
  | .right, _, r => r

section Merge

variable {T K : Type*} [LinearOrder K] (keyFn : T → K)

/-- The loop with a cursor on each list. -/
def mergeSortedOverlay (precedence : OverlayPrecedence) : List T → List T → List T
  | [], right => right
  | l :: left, [] => l :: left
  | l :: left, r :: right =>
      match compare (keyFn l) (keyFn r) with
      | .lt => l :: mergeSortedOverlay precedence left (r :: right)
      | .gt => r :: mergeSortedOverlay precedence (l :: left) right
      | .eq => precedence.pick l r :: mergeSortedOverlay precedence left right
termination_by left right => left.length + right.length

/-- The list is sorted, its keys are those of both inputs, and it has the items of the one that
takes precedence and those of the other one with the remaining keys. -/
structure IsOverlay (precedence : OverlayPrecedence) (left right out : List T) : Prop where
  sorted : (out.map keyFn).Pairwise (· < ·)
  keys : ∀ key, key ∈ out.map keyFn ↔ key ∈ left.map keyFn ∨ key ∈ right.map keyFn
  items : ∀ x, x ∈ out ↔ x ∈ precedence.pick left right
    ∨ x ∈ precedence.pick right left ∧ keyFn x ∉ (precedence.pick left right).map keyFn

variable {keyFn} {precedence : OverlayPrecedence} {left right : List T}

theorem mergeSortedOverlay_swap (left right : List T) :
    mergeSortedOverlay keyFn .right left right = mergeSortedOverlay keyFn .left right left := by
  fun_induction mergeSortedOverlay keyFn .left right left with
  | case1 left => cases left <;> simp [mergeSortedOverlay]
  | case2 r right => simp [mergeSortedOverlay]
  | case3 r right l left hcmp ih =>
      rw [mergeSortedOverlay, compare_gt_iff_gt.mpr (compare_lt_iff_lt.mp hcmp), ← ih]
  | case4 r right l left hcmp ih =>
      rw [mergeSortedOverlay, compare_lt_iff_lt.mpr (compare_gt_iff_gt.mp hcmp), ← ih]
  | case5 r right l left hcmp ih =>
      rw [mergeSortedOverlay, compare_eq_iff_eq.mpr (compare_eq_iff_eq.mp hcmp).symm, ← ih]
      rfl

theorem mem_or_mem_of_mem_merge {x : T} (h : x ∈ mergeSortedOverlay keyFn precedence left right) :
    x ∈ left ∨ x ∈ right := by
  fun_induction mergeSortedOverlay keyFn precedence left right with
  | case1 right => exact Or.inr h
  | case2 l left => exact Or.inl h
  | case3 l left r right hcmp ih =>
      rcases List.mem_cons.mp h with rfl | h
      · exact Or.inl List.mem_cons_self
      · exact (ih h).imp_left (List.mem_cons_of_mem _)
  | case4 l left r right hcmp ih =>
      rcases List.mem_cons.mp h with rfl | h
      · exact Or.inr List.mem_cons_self
      · exact (ih h).imp_right (List.mem_cons_of_mem _)
  | case5 l left r right hcmp ih =>
      rcases List.mem_cons.mp h with rfl | h
      · cases precedence
        · exact Or.inl List.mem_cons_self
        · exact Or.inr List.mem_cons_self
      · exact (ih h).imp (List.mem_cons_of_mem _) (List.mem_cons_of_mem _)

theorem lt_of_mem_tail {l x : T} (h : ((l :: left).map keyFn).Pairwise (· < ·)) (hx : x ∈ left) :
    keyFn l < keyFn x := by
  rw [List.map_cons, List.pairwise_cons] at h
  exact h.1 _ (List.mem_map_of_mem hx)

theorem le_of_mem_sorted {l x : T} (h : ((l :: left).map keyFn).Pairwise (· < ·))
    (hx : x ∈ l :: left) : keyFn l ≤ keyFn x := by
  rcases List.mem_cons.mp hx with rfl | hx
  · exact le_rfl
  · exact (lt_of_mem_tail h hx).le

theorem sorted_tail {l : T} (h : ((l :: left).map keyFn).Pairwise (· < ·)) :
    (left.map keyFn).Pairwise (· < ·) := by
  rw [List.map_cons, List.pairwise_cons] at h
  exact h.2

theorem notMem_of_lt_head {l : T} {key : K} (h : ((l :: left).map keyFn).Pairwise (· < ·))
    (hkey : key < keyFn l) : key ∉ (l :: left).map keyFn := by
  intro hmem
  obtain ⟨x, hx, rfl⟩ := List.mem_map.mp hmem
  exact absurd (le_of_mem_sorted h hx) (not_le.mpr hkey)

theorem sorted_merge (hleft : (left.map keyFn).Pairwise (· < ·))
    (hright : (right.map keyFn).Pairwise (· < ·)) :
    ((mergeSortedOverlay keyFn precedence left right).map keyFn).Pairwise (· < ·) := by
  fun_induction mergeSortedOverlay keyFn precedence left right with
  | case1 right => exact hright
  | case2 l left => exact hleft
  | case3 l left r right hcmp ih =>
      rw [List.map_cons, List.pairwise_cons]
      refine ⟨fun key hkey => ?_, ih (sorted_tail hleft) hright⟩
      obtain ⟨x, hx, rfl⟩ := List.mem_map.mp hkey
      rcases mem_or_mem_of_mem_merge hx with hx | hx
      · exact lt_of_mem_tail hleft hx
      · exact (compare_lt_iff_lt.mp hcmp).trans_le (le_of_mem_sorted hright hx)
  | case4 l left r right hcmp ih =>
      rw [List.map_cons, List.pairwise_cons]
      refine ⟨fun key hkey => ?_, ih hleft (sorted_tail hright)⟩
      obtain ⟨x, hx, rfl⟩ := List.mem_map.mp hkey
      rcases mem_or_mem_of_mem_merge hx with hx | hx
      · exact (compare_gt_iff_gt.mp hcmp).trans_le (le_of_mem_sorted hleft hx)
      · exact lt_of_mem_tail hright hx
  | case5 l left r right hcmp ih =>
      have heq := compare_eq_iff_eq.mp hcmp
      rw [List.map_cons, List.pairwise_cons]
      refine ⟨fun key hkey => ?_, ih (sorted_tail hleft) (sorted_tail hright)⟩
      obtain ⟨x, hx, rfl⟩ := List.mem_map.mp hkey
      have hpick : keyFn (precedence.pick l r) = keyFn l := by
        cases precedence
        · rfl
        · exact heq.symm
      rw [hpick]
      rcases mem_or_mem_of_mem_merge hx with hx | hx
      · exact lt_of_mem_tail hleft hx
      · rw [heq]
        exact lt_of_mem_tail hright hx

theorem mem_merge_left_iff (hleft : (left.map keyFn).Pairwise (· < ·))
    (hright : (right.map keyFn).Pairwise (· < ·)) (x : T) :
    x ∈ mergeSortedOverlay keyFn .left left right
      ↔ x ∈ left ∨ x ∈ right ∧ keyFn x ∉ left.map keyFn := by
  fun_induction mergeSortedOverlay keyFn .left left right with
  | case1 right => simp
  | case2 l left => simp
  | case3 l left r right hcmp ih =>
      have hcons : x ∈ l :: left ↔ x = l ∨ x ∈ left := List.mem_cons
      rw [List.mem_cons, ih (sorted_tail hleft) hright, hcons, or_assoc]
      refine or_congr_right (or_congr_right (and_congr_right fun hx => ?_))
      have hne : keyFn x ≠ keyFn l :=
        ((compare_lt_iff_lt.mp hcmp).trans_le (le_of_mem_sorted hright hx)).ne'
      rw [List.map_cons, List.mem_cons, not_or, and_iff_right hne]
  | case4 l left r right hcmp ih =>
      have hr := notMem_of_lt_head hleft (compare_gt_iff_gt.mp hcmp)
      have hcons : x ∈ r :: right ↔ x = r ∨ x ∈ right := List.mem_cons
      rw [List.mem_cons, ih hleft (sorted_tail hright), or_left_comm, hcons, or_and_right]
      refine or_congr_right (or_congr_left ⟨?_, And.left⟩)
      rintro rfl
      exact ⟨rfl, hr⟩
  | case5 l left r right hcmp ih =>
      have heq := compare_eq_iff_eq.mp hcmp
      have hkey {x : T} (hx : x ∈ right) : keyFn x ≠ keyFn l := by
        rw [heq]
        exact (lt_of_mem_tail hright hx).ne'
      have hcons : x ∈ l :: left ↔ x = l ∨ x ∈ left := List.mem_cons
      rw [OverlayPrecedence.pick, List.mem_cons, ih (sorted_tail hleft) (sorted_tail hright), hcons,
        or_assoc]
      refine or_congr_right (or_congr_right
        ⟨fun h => ⟨List.mem_cons_of_mem _ h.1, ?_⟩, fun h => ?_⟩)
      · rw [List.map_cons, List.mem_cons, not_or]
        exact ⟨hkey h.1, h.2⟩
      · obtain ⟨hx, hnot⟩ := h
        rw [List.map_cons, List.mem_cons, not_or] at hnot
        rcases List.mem_cons.mp hx with rfl | hx
        · exact absurd heq.symm hnot.1
        · exact ⟨hx, hnot.2⟩

/-- **The merge of sorted lists is their overlay.** -/
theorem isOverlay_merge (hleft : (left.map keyFn).Pairwise (· < ·))
    (hright : (right.map keyFn).Pairwise (· < ·)) :
    IsOverlay keyFn precedence left right (mergeSortedOverlay keyFn precedence left right) := by
  have hitems : ∀ x, x ∈ mergeSortedOverlay keyFn precedence left right
      ↔ x ∈ precedence.pick left right
        ∨ x ∈ precedence.pick right left ∧ keyFn x ∉ (precedence.pick left right).map keyFn := by
    intro x
    cases precedence with
    | left => exact mem_merge_left_iff hleft hright x
    | right =>
        rw [mergeSortedOverlay_swap]
        exact mem_merge_left_iff hright hleft x
  refine ⟨sorted_merge hleft hright, fun key => ?_, hitems⟩
  have hkeys : key ∈ (mergeSortedOverlay keyFn precedence left right).map keyFn
      ↔ key ∈ (precedence.pick left right).map keyFn
        ∨ key ∈ (precedence.pick right left).map keyFn := by
    constructor
    · intro hkey
      obtain ⟨x, hx, rfl⟩ := List.mem_map.mp hkey
      exact ((hitems x).mp hx).imp List.mem_map_of_mem fun h => List.mem_map_of_mem h.1
    · intro hkey
      by_cases hfirst : key ∈ (precedence.pick left right).map keyFn
      · obtain ⟨x, hx, rfl⟩ := List.mem_map.mp hfirst
        exact List.mem_map_of_mem ((hitems x).mpr (Or.inl hx))
      · obtain ⟨x, hx, rfl⟩ := List.mem_map.mp (hkey.resolve_left hfirst)
        exact List.mem_map_of_mem ((hitems x).mpr (Or.inr ⟨hx, hfirst⟩))
  rw [hkeys]
  cases precedence with
  | left => rfl
  | right => exact or_comm

end Merge

/-! ## The views of a repository -/

structure View where
  name : String
  heads : Finset Blake3Hash
deriving DecidableEq

/-- An entry of a directory. A file has its bytes, unless it cannot be read. -/
inductive DirEntry where
  | file (bytes : Option Bytes)
  | dir (entries : List DirEntry)
  | other
  /-- Listing the entry fails, or opening the directory that it is. -/
  | unreadable

inductive ViewLoadError where
  | read
  | decode
deriving DecidableEq

/-- The files below a directory, in the order in which the directories list them. -/
def collectViewPaths : List DirEntry → Except ViewLoadError (List (Option Bytes))
  | [] => .ok []
  | .file bytes :: entries => do
      let paths ← collectViewPaths entries
      .ok (bytes :: paths)
  | .dir inner :: entries => do
      let innerPaths ← collectViewPaths inner
      let paths ← collectViewPaths entries
      .ok (innerPaths ++ paths)
  | .other :: entries => collectViewPaths entries
  | .unreadable :: _ => .error .read

/-- The name and the heads. The bytes behind them are ignored. -/
def readView : Reader UInt8 View :=
  Bincode.readStr.andThen fun name => (Bincode.readVec Bincode.readHash).map fun heads =>
    ⟨name, heads.toFinset⟩

/-- What `View::save` writes, with the heads in some order. -/
def serializeView (name : String) (heads : List Blake3Hash) : Bytes :=
  Bincode.str name ++ Bincode.vec Blake3Hash.asBytes heads

def decodeView : Option Bytes → Except ViewLoadError View
  | none => .error .read
  | some bytes =>
      match readView bytes with
      | none => .error .decode
      | some (view, _) => .ok view

/-- Without a directory there are no views. -/
def loadAllViews (root : Option (List DirEntry)) : Except ViewLoadError (List View) :=
  match root with
  | none => .ok []
  | some entries => do
      let paths ← collectViewPaths entries
      paths.mapM decodeView

def sortByName (views : List View) : List View :=
  views.insertionSort fun a b => a.name ≤ b.name

def loadViewsWithOverlay (root : Option (List DirEntry)) (overlay : List View)
    (precedence : OverlayPrecedence) : Except ViewLoadError (List View) := do
  let persisted ← loadAllViews root
  .ok (mergeSortedOverlay View.name precedence (sortByName persisted) (sortByName overlay))

theorem mem_sortByName {views : List View} {view : View} :
    view ∈ sortByName views ↔ view ∈ views :=
  List.mem_insertionSort _

theorem mem_names_sortByName {views : List View} {name : String} :
    name ∈ (sortByName views).map View.name ↔ name ∈ views.map View.name :=
  ((List.perm_insertionSort _ views).map _).mem_iff

theorem sorted_sortByName {views : List View} (h : (views.map View.name).Nodup) :
    ((sortByName views).map View.name).Pairwise (· < ·) := by
  have htotal : Std.Total fun a b : View => a.name ≤ b.name := ⟨fun a b => le_total a.name b.name⟩
  have htrans : IsTrans View fun a b => a.name ≤ b.name := ⟨fun _ _ _ => le_trans⟩
  have hsorted : ((sortByName views).map View.name).Pairwise (· ≤ ·) := by
    rw [List.pairwise_map]
    exact List.pairwise_insertionSort _ views
  have hnodup : ((sortByName views).map View.name).Nodup :=
    ((List.perm_insertionSort _ views).map _).nodup_iff.mpr h
  exact (hsorted.and hnodup).imp fun hab => lt_of_le_of_ne hab.1 hab.2

theorem isOverlay_loadViews {root : Option (List DirEntry)} {overlay persisted : List View}
    {precedence : OverlayPrecedence} (hload : loadAllViews root = .ok persisted)
    (hpersisted : (persisted.map View.name).Nodup) (hoverlay : (overlay.map View.name).Nodup) :
    ∃ views, loadViewsWithOverlay root overlay precedence = .ok views
      ∧ IsOverlay View.name precedence persisted overlay views := by
  have hmerge : IsOverlay View.name precedence (sortByName persisted) (sortByName overlay) _ :=
    isOverlay_merge (sorted_sortByName hpersisted) (sorted_sortByName hoverlay)
  refine ⟨_, by rw [loadViewsWithOverlay, hload]; rfl, hmerge.sorted, fun key => ?_, fun x => ?_⟩
  · rw [hmerge.keys, mem_names_sortByName, mem_names_sortByName]
  · have hitems := hmerge.items x
    cases precedence <;>
      simpa only [OverlayPrecedence.pick, mem_sortByName, mem_names_sortByName] using hitems

/-- **Overlays.** Two lists that are strictly sorted by key are merged into their overlay, and so
are the views of a repository and the views in memory, if each have different names. -/
theorem sorted_overlay_merge {T K : Type*} [LinearOrder K] (keyFn : T → K)
    (precedence : OverlayPrecedence) (left right : List T)
    (hleft : (left.map keyFn).Pairwise (· < ·)) (hright : (right.map keyFn).Pairwise (· < ·)) :
    IsOverlay keyFn precedence left right (mergeSortedOverlay keyFn precedence left right)
      ∧ ∀ root overlay persisted, loadAllViews root = .ok persisted →
        (persisted.map View.name).Nodup → (overlay.map View.name).Nodup →
        ∃ views, loadViewsWithOverlay root overlay precedence = .ok views
          ∧ IsOverlay View.name precedence persisted overlay views :=
  ⟨isOverlay_merge hleft hright, fun _ _ _ => isOverlay_loadViews⟩

theorem decodeView_serializeView {name : String} {heads : List Blake3Hash}
    (hname : (utf8 name).length < 256 ^ 8) (hheads : heads.length < 256 ^ 8) :
    decodeView (some (serializeView name heads)) = .ok ⟨name, heads.toFinset⟩ := by
  have hvec := Bincode.readVec_vec Bincode.undoes_readHash heads ⟨fun _ _ => trivial, hheads⟩ []
  rw [List.append_nil] at hvec
  have hread : readView (serializeView name heads) = some (⟨name, heads.toFinset⟩, []) := by
    rw [readView, serializeView, Bincode.undoes_readStr.andThen hname, Reader.map, hvec]
    rfl
  rw [decodeView, hread]

/-- A view `b` on disk, in a directory of its own, and views `a` and `b` in memory. -/
theorem sorted_overlay_merge_views :
    IsOverlay View.name .right [⟨"b", {1}⟩] [⟨"a", {2}⟩, ⟨"b", {3}⟩]
        [⟨"a", {2}⟩, ⟨"b", {3}⟩]
      ∧ ∃ views, loadViewsWithOverlay (some [.dir [.file (some (serializeView "b" [1]))]])
          [⟨"b", {3}⟩, ⟨"a", {2}⟩] .right = .ok views
        ∧ IsOverlay View.name .right [⟨"b", {1}⟩] [⟨"b", {3}⟩, ⟨"a", {2}⟩] views := by
  have hload : loadAllViews (some [.dir [.file (some (serializeView "b" [1]))]])
      = .ok [⟨"b", {1}⟩] := by
    have hlen : (utf8 "b").length < 256 ^ 8 := by
      rw [utf8_eq]
      decide
    have hpaths : collectViewPaths [.dir [.file (some (serializeView "b" [1]))]]
        = .ok [some (serializeView "b" [1])] := by
      simp only [collectViewPaths]
      rfl
    have hdecode : [some (serializeView "b" [1])].mapM decodeView = .ok [⟨"b", {1}⟩] := by
      rw [List.mapM_cons, decodeView_serializeView hlen (by decide)]
      rfl
    simp only [loadAllViews, hpaths]
    exact hdecode
  obtain ⟨hmerge, hviews⟩ := sorted_overlay_merge View.name .right [⟨"b", {1}⟩]
    [⟨"a", {2}⟩, ⟨"b", {3}⟩] (by decide) (by decide)
  have hfirst : compare "b" "a" = .gt := compare_gt_iff_gt.mpr (by decide)
  have hsecond : compare "b" "b" = .eq := compare_eq_iff_eq.mpr rfl
  refine ⟨?_, hviews _ _ _ hload (by decide) (by decide)⟩
  simpa [mergeSortedOverlay, OverlayPrecedence.pick, hfirst, hsecond] using hmerge

end ArcVcs
