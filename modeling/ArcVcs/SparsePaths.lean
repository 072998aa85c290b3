import ArcVcs.GitText
import ArcVcs.Lib.Segments

/-!
# Spellings of sparse paths

A text is trimmed and its backslashes turned, then leading `./` are dropped, and then the slashes at
both ends. Each step is taken once, so a `./` or a white space that only a later step brings to an
end of the text stays there.
-/

namespace ArcVcs.SparsePattern

variable {path path' : List Char} {p : Char → Bool} {s : List Char}

def slashed (path : List Char) : List Char :=
  (trimMatches isWhiteSpace path).map fun c => if c = '\\' then '/' else c

def dots (k : ℕ) : List Char := (List.replicate k ['.', '/']).flatten

def slashes (n : ℕ) : List Char := List.replicate n '/'

/-- Once the `./` and then the slashes are gone, a `./` or a white space begins the text or a white
space ends it. -/
def Restarts (path : List Char) : Prop :=
  (∃ k m s c, slashed path = dots k ++ slashes (m + 1) ++ '.' :: '/' :: s ∧ c ∈ s ∧ c ≠ '/')
    ∨ (∃ k m c s, slashed path = dots k ++ slashes m ++ c :: s ∧ isWhiteSpace c)
    ∨ ∃ s c n, slashed path = s ++ c :: slashes n ∧ isWhiteSpace c

/-- A single dot behind what is dropped. -/
def SpellsDot (path : List Char) : Prop :=
  ∃ k m n, slashed path = dots k ++ slashes m ++ '.' :: slashes n ∧ (m = 0 → n = 0)

/-- The segments, with an empty one for each repeated separator inside. -/
def spelling (path : List Char) : List (List Char) :=
  (((slashed path).splitOn '/').dropWhile fun seg => seg = [] ∨ seg = ['.']).rdropWhile (· = [])

/-- The segments that all spellings of a path share. -/
def canonical (path : List Char) : List (List Char) := (spelling path).filter (· ≠ [])

def segments (text : List Char) : List (List Char) := (text.splitOn '/').filter (· ≠ [])

/-- Paths are matched by their segments, however they are spelled. -/
structure MatchesBySegments (input : String) (path path' : String) : Prop where
  idempotent : ∀ s ∈ [input, path, path'],
    normalizePath (normalizePath s.toList) = normalizePath s.toList
  matched : ∀ pattern ∈ new input, ∀ s ∈ [path, path'], pattern.matchesPath s = true ↔
    segments pattern.text <+: segments (normalizePath s.toList)
  alike : canonical path.toList = canonical path'.toList → ∀ pattern ∈ new input,
    pattern.matchesPath path = pattern.matchesPath path'

/-! ## Trimming -/

/-- Neither end satisfies the predicate. -/
structure Bare (p : Char → Bool) (s : List Char) : Prop where
  head : ∀ c, s.head? = some c → p c = false
  last : ∀ c, s.getLast? = some c → p c = false

theorem trimMatches_eq (p : Char → Bool) (s : List Char) :
    trimMatches p s = (s.dropWhile p).rdropWhile p := rfl

theorem bare_trimMatches (p : Char → Bool) (s : List Char) : Bare p (trimMatches p s) := by
  rw [trimMatches_eq]
  refine ⟨fun c hc => ?_, fun c hc => ?_⟩
  · obtain ⟨b, hb⟩ := List.rdropWhile_prefix p (s.dropWhile p)
    have hhead : (s.dropWhile p).head? = some c := by
      rw [← hb, List.head?_append, hc]
      rfl
    have hnot := List.head?_dropWhile_not p s
    rwa [hhead] at hnot
  · have hne : (s.dropWhile p).rdropWhile p ≠ [] := fun hnil => by
      rw [hnil] at hc
      cases hc
    have hlast := List.rdropWhile_last_not p _ hne
    rw [List.getLast?_eq_some_getLast hne, Option.some_inj] at hc
    rw [hc] at hlast
    exact Bool.eq_false_iff.mpr hlast

theorem Bare.dropWhile_append {t b : List Char} (h : Bare p t) (hb : ∀ c ∈ b, p c) :
    (t ++ b).dropWhile p = if t = [] then [] else t ++ b := by
  cases t with
  | nil =>
      rw [List.nil_append, if_pos rfl]
      exact List.dropWhile_eq_nil_iff.mpr hb
  | cons c t =>
      rw [if_neg (List.cons_ne_nil c t), List.cons_append, List.dropWhile_cons, h.head c rfl,
        if_neg Bool.false_ne_true]

theorem trimMatches_eq_iff {t : List Char} : trimMatches p s = t ↔
    ∃ a b, s = a ++ (t ++ b) ∧ (∀ c ∈ a, p c) ∧ (∀ c ∈ b, p c) ∧ Bare p t := by
  constructor
  · rintro rfl
    refine ⟨s.takeWhile p, (s.dropWhile p).rtakeWhile p, ?_, fun c => List.mem_takeWhile_imp,
      fun c => List.mem_rtakeWhile_imp, bare_trimMatches p s⟩
    rw [trimMatches_eq, ← List.append_assoc, List.append_assoc, List.rdropWhile_append_rtakeWhile,
      List.takeWhile_append_dropWhile]
  · rintro ⟨a, b, rfl, ha, hb, hbare⟩
    rw [trimMatches_eq, List.dropWhile_append_of_pos ha, hbare.dropWhile_append hb]
    split_ifs with ht
    · rw [ht]
      rfl
    · exact Segments.rdropWhile_append hbare.last hb

theorem trimMatches_eq_self_iff : trimMatches p s = s ↔ Bare p s := by
  refine ⟨fun h => h ▸ bare_trimMatches p s, fun h => trimMatches_eq_iff.mpr ⟨[], [], ?_⟩⟩
  simpa using h

/-! ## The steps of the normal form -/

theorem dots_succ (k : ℕ) : dots (k + 1) = '.' :: '/' :: dots k := by
  rw [dots, List.replicate_succ, List.flatten_cons]
  rfl

theorem stripDotSlash_of_not_prefix {t : List Char} (h : ¬ ['.', '/'] <+: t) :
    stripDotSlash t = t := by
  unfold stripDotSlash
  split
  · exact absurd (by simp) h
  · rfl

theorem stripDotSlash_eq_iff {t : List Char} : stripDotSlash s = t ↔
    ∃ k, s = dots k ++ t ∧ ¬ ['.', '/'] <+: t := by
  constructor
  · rintro rfl
    fun_induction stripDotSlash s with
    | case1 s ih =>
        obtain ⟨k, hk, hnot⟩ := ih
        refine ⟨k + 1, ?_, hnot⟩
        rw [dots_succ, List.cons_append, List.cons_append, ← hk]
    | case2 s hs =>
        refine ⟨0, rfl, ?_⟩
        rintro ⟨rest, rfl⟩
        exact hs rest rfl
  · rintro ⟨k, rfl, hnot⟩
    induction k with
    | zero => exact stripDotSlash_of_not_prefix hnot
    | succ k ih => rw [dots_succ, List.cons_append, List.cons_append, stripDotSlash, ih]

theorem normalizePath_eq (path : List Char) :
    normalizePath path = trimMatches (· = '/') (stripDotSlash (slashed path)) := rfl

theorem eq_slashes {a : List Char} (h : ∀ c ∈ a, decide (c = '/') = true) :
    a = slashes a.length := List.eq_replicate_iff.mpr ⟨rfl, fun c hc => of_decide_eq_true (h c hc)⟩

theorem forall_slashes (n : ℕ) : ∀ c ∈ slashes n, decide (c = '/') = true := fun _ hc =>
  decide_eq_true (List.eq_of_mem_replicate hc)

/-- **The normal form from the spelling.** -/
theorem normalizePath_eq_iff {z : List Char} : normalizePath path = z ↔
    ∃ k m n, slashed path = dots k ++ (slashes m ++ (z ++ slashes n))
      ∧ ¬ ['.', '/'] <+: slashes m ++ (z ++ slashes n) ∧ Bare (· = '/') z := by
  rw [normalizePath_eq, trimMatches_eq_iff]
  constructor
  · rintro ⟨a, b, hs, ha, hb, hbare⟩
    obtain ⟨k, hk, hnot⟩ := stripDotSlash_eq_iff.mp hs
    rw [eq_slashes ha, eq_slashes hb] at hk hnot
    exact ⟨k, _, _, hk, hnot, hbare⟩
  · rintro ⟨k, m, n, hs, hnot, hbare⟩
    exact ⟨slashes m, slashes n, stripDotSlash_eq_iff.mpr ⟨k, hs, hnot⟩, forall_slashes m,
      forall_slashes n, hbare⟩

/-- The normal form of a normal form is itself. -/
structure Steady (z : List Char) : Prop where
  bare : Bare isWhiteSpace z
  undotted : ¬ ['.', '/'] <+: z

theorem length_trimMatches_le (p : Char → Bool) (s : List Char) :
    (trimMatches p s).length ≤ s.length := by
  obtain ⟨a, b, hs, -⟩ := trimMatches_eq_iff.mp (rfl : trimMatches p s = _)
  have hlength := congrArg List.length hs
  rw [List.length_append, List.length_append] at hlength
  omega

theorem normalizePath_eq_self_iff {z : List Char} (hz : Bare (· = '/') z) (hback : '\\' ∉ z) :
    normalizePath z = z ↔ Steady z := by
  constructor
  · intro h
    obtain ⟨k, m, n, hs, hnot, -⟩ := normalizePath_eq_iff.mp h
    have hle : (slashed z).length ≤ z.length := by
      rw [slashed, List.length_map]
      exact length_trimMatches_le _ _
    have hlength := congrArg List.length hs
    rw [List.length_append, List.length_append, List.length_append, slashes, slashes,
      List.length_replicate, List.length_replicate] at hlength
    obtain ⟨rfl, rfl⟩ : m = 0 ∧ n = 0 := by omega
    refine ⟨?_, by simpa [slashes] using hnot⟩
    obtain ⟨a, b, hz', -, -, hbare⟩ := trimMatches_eq_iff.mp (rfl : trimMatches isWhiteSpace z = _)
    have hlength' := congrArg List.length hz'
    rw [List.length_append, List.length_append] at hlength'
    have hfull : (slashed z).length = (trimMatches isWhiteSpace z).length := by
      rw [slashed, List.length_map]
    obtain rfl := List.eq_nil_of_length_eq_zero (l := a) (by omega)
    obtain rfl := List.eq_nil_of_length_eq_zero (l := b) (by omega)
    rw [List.nil_append, List.append_nil] at hz'
    rwa [← hz'] at hbare
  · intro h
    have hs : slashed z = z := by
      rw [slashed, trimMatches_eq_self_iff.mpr h.bare]
      refine Eq.trans (List.map_congr_left fun c hc => if_neg ?_) z.map_id
      exact fun heq => hback (heq ▸ hc)
    refine normalizePath_eq_iff.mpr ⟨0, 0, 0, ?_, ?_, hz⟩
    · simpa [dots, slashes] using hs
    · simpa [slashes] using h.undotted

theorem exists_last {c : Char} (hc : c ∈ s) (hslash : c ≠ '/') :
    ∃ s' d n, s = s' ++ [d] ++ slashes n ∧ d ≠ '/' := by
  have hne : s.rdropWhile (· = '/') ≠ [] := fun hnil => by
    rw [List.rdropWhile_eq_nil_iff] at hnil
    exact hslash (of_decide_eq_true (hnil c hc))
  refine ⟨(s.rdropWhile (· = '/')).dropLast, (s.rdropWhile (· = '/')).getLast hne,
    (s.rtakeWhile (· = '/')).length, ?_,
    fun h => List.rdropWhile_last_not _ _ hne (decide_eq_true h)⟩
  rw [List.dropLast_append_getLast, ← eq_slashes fun c => List.mem_rtakeWhile_imp,
    List.rdropWhile_append_rtakeWhile]

theorem not_prefix_slashes_append (m : ℕ) (hs : m = 0 → ¬ ['.', '/'] <+: s) :
    ¬ ['.', '/'] <+: slashes m ++ s := by
  cases m with
  | zero => exact hs rfl
  | succ m =>
      rw [slashes, List.replicate_succ, List.cons_append, List.cons_prefix_cons]
      exact fun h => absurd h.1 (by decide)

theorem bare_concat {d : Char} (hd : d ≠ '/') (hhead : ∀ c, (s ++ [d]).head? = some c → c ≠ '/') :
    Bare (· = '/') (s ++ [d]) := by
  refine ⟨fun c hc => decide_eq_false (hhead c hc), fun c hc => ?_⟩
  rw [List.getLast?_concat, Option.some_inj] at hc
  exact decide_eq_false (hc ▸ hd)

theorem eq_of_mem_dots {k : ℕ} {c : Char} (h : c ∈ dots k) : c = '.' ∨ c = '/' := by
  obtain ⟨l, hl, hc⟩ := List.mem_flatten.mp h
  rw [List.eq_of_mem_replicate hl] at hc
  simpa using hc

theorem ne_slash_of_isWhiteSpace {c : Char} (h : isWhiteSpace c = true) : c ≠ '/' := by
  rintro rfl
  exact absurd h (by decide)

theorem Restarts.not_steady (h : Restarts path) : ¬ Steady (normalizePath path) := by
  intro hsteady
  rcases h with ⟨k, m, s, c, hs, hc, hslash⟩ | ⟨k, m, c, s, hs, hc⟩ | ⟨s, c, n, hs, hc⟩
  · obtain ⟨s', d, n, rfl, hd⟩ := exists_last hc hslash
    have hz : normalizePath path = '.' :: '/' :: s' ++ [d] := by
      refine normalizePath_eq_iff.mpr ⟨k, m + 1, n, by simpa using hs, ?_, bare_concat hd ?_⟩
      · exact not_prefix_slashes_append _ fun h => absurd h m.succ_ne_zero
      · rintro c hhead
        obtain rfl : '.' = c := Option.some_inj.mp hhead
        decide
    exact hsteady.undotted (hz ▸ ⟨s' ++ [d], rfl⟩)
  · have hslash := ne_slash_of_isWhiteSpace hc
    obtain ⟨s', d, n, htail, hd⟩ := exists_last (s := c :: s) List.mem_cons_self hslash
    have hhead : (s' ++ [d]).head? = some c := by
      have hheads := congrArg List.head? htail
      rw [List.head?_append] at hheads
      cases s' <;> simpa using hheads.symm
    have hz : normalizePath path = s' ++ [d] := by
      refine normalizePath_eq_iff.mpr ⟨k, m, n, ?_, ?_, bare_concat hd fun b hb => ?_⟩
      · rw [hs, htail]
        simp
      · refine not_prefix_slashes_append m fun _ hpre => ?_
        rw [← htail, List.cons_prefix_cons] at hpre
        exact absurd (hpre.1 ▸ hc) (by decide)
      · exact Option.some_inj.mp (hhead.symm.trans hb) ▸ hslash
    have hbare := hsteady.bare.head c (hz ▸ hhead)
    rw [hc] at hbare
    cases hbare
  · have hslash := ne_slash_of_isWhiteSpace hc
    obtain ⟨k, m, n', hs', -, hbare⟩ := normalizePath_eq_iff.mp (rfl : normalizePath path = _)
    have hne : normalizePath path ≠ [] := fun hnil => by
      have hmem : c ∈ slashed path := by
        rw [hs]
        exact List.mem_append_right _ List.mem_cons_self
      rw [hs', hnil, List.nil_append] at hmem
      rcases List.mem_append.mp hmem with hmem | hmem
      · rcases eq_of_mem_dots hmem with rfl | rfl
        · exact absurd hc (by decide)
        · exact hslash rfl
      · rcases List.mem_append.mp hmem with hmem | hmem
        · exact hslash (List.eq_of_mem_replicate hmem)
        · exact hslash (List.eq_of_mem_replicate hmem)
    have hlast (t : List Char) : (t ++ normalizePath path).getLast?
        = (normalizePath path).getLast? := by
      rw [List.getLast?_append, List.getLast?_eq_some_getLast hne]
      rfl
    have hdrop : (slashed path).rdropWhile (· = '/') = s ++ [c] := by
      rw [hs, ← List.singleton_append, ← List.append_assoc]
      refine Segments.rdropWhile_append (fun b hb => ?_) (forall_slashes n)
      rw [List.getLast?_concat, Option.some_inj] at hb
      exact decide_eq_false (hb ▸ hslash)
    have hdrop' : (slashed path).rdropWhile (· = '/')
        = dots k ++ slashes m ++ normalizePath path := by
      rw [hs', ← List.append_assoc, ← List.append_assoc]
      exact Segments.rdropWhile_append (fun b hb => hbare.last b ((hlast _).symm.trans hb))
        (forall_slashes n')
    have hws := hsteady.bare.last c (by
      rw [← hlast (dots k ++ slashes m), ← hdrop', hdrop, List.getLast?_concat])
    rw [hc] at hws
    cases hws

theorem restarts_of_not_steady (h : ¬ Steady (normalizePath path)) : Restarts path := by
  obtain ⟨k, m, n, hs, hnot, hbare⟩ := normalizePath_eq_iff.mp (rfl : normalizePath path = _)
  by_cases hdot : ['.', '/'] <+: normalizePath path
  · obtain ⟨rest, hrest⟩ := hdot
    have hm : m ≠ 0 := by
      rintro rfl
      exact hnot ⟨rest ++ slashes n, by rw [← hrest]; simp [slashes]⟩
    obtain ⟨m, rfl⟩ := Nat.exists_eq_succ_of_ne_zero hm
    have hrest' : rest ≠ [] := by
      rintro rfl
      have hslash := hbare.last '/' (by rw [← hrest]; rfl)
      exact absurd hslash (by decide)
    have hlast := hbare.last (rest.getLast hrest') (by
      rw [← hrest, List.getLast?_append, List.getLast?_eq_some_getLast hrest']
      rfl)
    refine .inl ⟨k, m, rest ++ slashes n, rest.getLast hrest', ?_,
      List.mem_append_left _ (List.getLast_mem hrest'), of_decide_eq_false hlast⟩
    rw [hs, ← hrest]
    simp
  by_cases hhead : ∀ c, (normalizePath path).head? = some c → isWhiteSpace c = false
  · have hlast : ∃ c, (normalizePath path).getLast? = some c ∧ isWhiteSpace c = true := by
      by_contra hall
      refine h ⟨⟨hhead, fun c hc => ?_⟩, hdot⟩
      exact Bool.eq_false_iff.mpr fun hws => hall ⟨c, hc, hws⟩
    obtain ⟨c, hc, hws⟩ := hlast
    obtain ⟨s, hz⟩ := List.getLast?_eq_some_iff.mp hc
    refine .inr (.inr ⟨dots k ++ slashes m ++ s, c, n, ?_, hws⟩)
    rw [hs, hz]
    simp
  · push Not at hhead
    obtain ⟨c, hc, hws⟩ := hhead
    obtain ⟨s, hz⟩ := List.head?_eq_some_iff.mp hc
    refine .inr (.inl ⟨k, m, c, s ++ slashes n, ?_, by simpa using hws⟩)
    rw [hs, hz]
    simp

theorem restarts_iff : Restarts path ↔ ¬ Steady (normalizePath path) :=
  ⟨Restarts.not_steady, restarts_of_not_steady⟩

theorem spellsDot_iff : SpellsDot path ↔ normalizePath path = ['.'] := by
  rw [normalizePath_eq_iff]
  refine exists_congr fun k => exists_congr fun m => exists_congr fun n => ?_
  rw [List.append_assoc, List.singleton_append]
  refine and_congr_right fun _ => ?_
  have hbare : Bare (· = '/') ['.'] := by
    constructor
    · rintro c hc
      obtain rfl : '.' = c := Option.some_inj.mp hc
      rfl
    · rintro c hc
      obtain rfl : '.' = c := Option.some_inj.mp hc
      rfl
  rw [and_iff_left hbare]
  constructor
  · intro h
    refine not_prefix_slashes_append m fun hm => ?_
    rw [h hm]
    simp [slashes]
  · rintro h rfl
    by_contra hn
    obtain ⟨n, rfl⟩ := Nat.exists_eq_succ_of_ne_zero hn
    exact h ⟨slashes n, rfl⟩

/-- **Normalising is idempotent where nothing restarts.** -/
theorem idempotent_iff :
    normalizePath (normalizePath path) = normalizePath path ↔ ¬ Restarts path := by
  obtain ⟨k, m, n, hs, -, hbare⟩ := normalizePath_eq_iff.mp (rfl : normalizePath path = _)
  have hback : '\\' ∉ normalizePath path := fun hmem => by
    have hmem' : '\\' ∈ slashed path := by
      rw [hs]
      exact List.mem_append_right _ (List.mem_append_right _ (List.mem_append_left _ hmem))
    obtain ⟨c, -, hc⟩ := List.mem_map.mp hmem'
    split_ifs at hc with hback
    · exact absurd hc (by decide)
    · exact hback hc
  rw [normalizePath_eq_self_iff hbare hback, restarts_iff, not_not]

/-! ## Segments -/

theorem matchesPath_iff (pattern : SparsePattern) (s : String) : pattern.matchesPath s = true ↔
    pattern.text.splitOn '/' <+: (normalizePath s.toList).splitOn '/' := by
  rw [Segments.splitOn_prefix_iff, matchesPath, Bool.or_eq_true, decide_eq_true_eq, eq_comm,
    Bool.and_eq_true, List.isPrefixOf_iff_prefix, decide_eq_true_eq]
  refine or_congr_right ⟨?_, ?_⟩
  · rintro ⟨⟨rest, hrest⟩, hhead⟩
    rw [← hrest, List.drop_left] at hhead
    obtain ⟨tail, rfl⟩ := List.head?_eq_some_iff.mp hhead
    exact ⟨tail, by rw [← hrest]; simp⟩
  · rintro ⟨tail, htail⟩
    rw [← htail, List.append_assoc, List.drop_left]
    exact ⟨List.prefix_append _ _, rfl⟩

theorem splitOn_dots (k : ℕ) (s : List Char) :
    (dots k ++ s).splitOn '/' = List.replicate k ['.'] ++ s.splitOn '/' := by
  induction k with
  | zero => rfl
  | succ k ih =>
      have hdot : ['.'].splitOn '/' = [['.']] := rfl
      have hcons : '.' :: '/' :: (dots k ++ s) = ['.'] ++ '/' :: (dots k ++ s) := rfl
      rw [dots_succ, List.cons_append, List.cons_append, hcons, List.splitOn_append_cons_self, ih,
        hdot]
      rfl

theorem bare_normalizePath (path : List Char) : Bare (· = '/') (normalizePath path) :=
  bare_trimMatches _ _

theorem Steady.first_segment {z : List Char} (h : Steady z) (hbare : Bare (· = '/') z)
    (hnil : z ≠ []) :
    ∃ first rest, z.splitOn '/' = first :: rest ∧ first ≠ [] ∧ (first = ['.'] → z = ['.']) := by
  obtain ⟨c, t, rfl⟩ := List.exists_cons_of_ne_nil hnil
  obtain ⟨seg, segs, ht, hsplit⟩ :=
    Segments.splitOn_cons_of_ne (of_decide_eq_false (hbare.head c rfl)) t
  refine ⟨c :: seg, segs, hsplit, List.cons_ne_nil c seg, fun heq => ?_⟩
  obtain ⟨rfl, rfl⟩ := List.cons_eq_cons.mp heq
  have hpre : [].splitOn '/' <+: t.splitOn '/' := by
    rw [ht, List.splitOn_nil]
    exact ⟨segs, rfl⟩
  rcases Segments.splitOn_prefix_iff.mp hpre with rfl | hslash
  · rfl
  · exact absurd (List.cons_prefix_cons.mpr ⟨rfl, hslash⟩) h.undotted

theorem Steady.spelling_eq (h : Steady (normalizePath path)) :
    spelling path = if normalizePath path = [] ∨ normalizePath path = ['.'] then []
      else (normalizePath path).splitOn '/' := by
  obtain ⟨k, m, n, hs, -, hbare⟩ := normalizePath_eq_iff.mp (rfl : normalizePath path = _)
  rw [spelling, hs, splitOn_dots, slashes, slashes, Segments.splitOn_replicate_append,
    Segments.splitOn_append_replicate,
    List.dropWhile_append_of_pos fun seg hseg => by simp [List.eq_of_mem_replicate hseg],
    List.dropWhile_append_of_pos fun seg hseg => by simp [List.eq_of_mem_replicate hseg]]
  generalize normalizePath path = z at h hbare ⊢
  have hempty : ∀ seg ∈ List.replicate n ([] : List Char), decide (seg = []) = true :=
    fun seg hseg => decide_eq_true (List.eq_of_mem_replicate hseg)
  split_ifs with hz
  · rw [List.dropWhile_eq_nil_iff.mpr, List.rdropWhile_nil]
    intro seg hseg
    rcases List.mem_append.mp hseg with hseg | hseg
    · rcases hz with rfl | rfl
      · simp [List.mem_singleton.mp hseg]
      · simp [List.mem_singleton.mp hseg]
    · simp [List.eq_of_mem_replicate hseg]
  · obtain ⟨hnil, hdot⟩ := not_or.mp hz
    obtain ⟨first, rest, hsplit, hfirst, hfirst'⟩ := h.first_segment hbare hnil
    have hstop : ¬ decide (first = [] ∨ first = ['.']) = true := by
      rw [decide_eq_true_eq]
      exact not_or.mpr ⟨hfirst, fun heq => hdot (hfirst' heq)⟩
    have hdrop : (z.splitOn '/' ++ List.replicate n []).dropWhile
        (fun seg => decide (seg = [] ∨ seg = ['.'])) = z.splitOn '/' ++ List.replicate n [] := by
      rw [hsplit, List.cons_append, List.dropWhile_cons, if_neg hstop]
    rw [hdrop]
    refine Segments.rdropWhile_append (fun last hlast => decide_eq_false ?_) hempty
    obtain ⟨init, d, rfl⟩ := z.eq_nil_or_concat'.resolve_left hnil
    obtain ⟨segs, seg, hconcat⟩ := Segments.splitOn_concat_of_ne
      (of_decide_eq_false (hbare.last d List.getLast?_concat)) init
    rw [hconcat, List.getLast?_concat, Option.some_inj] at hlast
    rw [← hlast]
    simp

theorem Steady.canonical_eq (h : Steady (normalizePath path)) :
    canonical path = if normalizePath path = [] ∨ normalizePath path = ['.'] then []
      else segments (normalizePath path) := by
  rw [canonical, h.spelling_eq]
  split_ifs <;> rfl

theorem segments_of_splitOn {t q : List Char} (h : t.splitOn '/' <+: q.splitOn '/') :
    segments t <+: segments q := h.filter _

theorem Steady.segments_eq {z : List Char} (h : Steady z) (hbare : Bare (· = '/') z)
    (hnil : z ≠ []) : ∃ first rest, segments z = first :: rest ∧ (first = ['.'] → z = ['.']) := by
  obtain ⟨first, rest, hsplit, hfirst, hdot⟩ := h.first_segment hbare hnil
  refine ⟨first, rest.filter (· ≠ []), ?_, hdot⟩
  rw [segments, hsplit, List.filter_cons_of_pos (by simpa using hfirst)]

theorem dot_prefix_iff {q : List Char} (hq : Steady q) (hbare : Bare (· = '/') q) :
    [['.']] <+: segments q ↔ q = ['.'] := by
  constructor
  · intro h
    have hnil : q ≠ [] := by
      rintro rfl
      exact absurd h (by decide)
    obtain ⟨first, rest, hseg, hdot⟩ := hq.segments_eq hbare hnil
    rw [hseg, List.cons_prefix_cons] at h
    exact hdot h.1.symm
  · rintro rfl
    exact List.prefix_rfl

theorem not_segments_prefix {t q : List Char} (ht : Steady t) (hbare : Bare (· = '/') t)
    (hnil : t ≠ []) (hdot : t ≠ ['.']) (hq : q = [] ∨ q = ['.']) :
    ¬ segments t <+: segments q := by
  obtain ⟨first, rest, hseg, hfirst⟩ := ht.segments_eq hbare hnil
  rw [hseg]
  rcases hq with rfl | rfl
  · intro h
    cases List.prefix_nil.mp h
  · intro h
    exact hdot (hfirst (List.cons_prefix_cons.mp h).1)

theorem Steady.canonical_eq_nil_iff (h : Steady (normalizePath path)) :
    canonical path = [] ↔ normalizePath path = [] ∨ normalizePath path = ['.'] := by
  rw [h.canonical_eq]
  split_ifs with hpath
  · exact iff_of_true rfl hpath
  · obtain ⟨first, rest, hseg, -⟩ :=
      h.segments_eq (bare_normalizePath path) fun hnil => hpath (.inl hnil)
    rw [hseg]
    exact iff_of_false (List.cons_ne_nil first rest) hpath

/-- **Where segments decide.** The segments of the pattern have to be separated alike. -/
theorem segments_iff {input path : List Char} (hinput : Steady (normalizePath input))
    (hpath : Steady (normalizePath path)) (hnil : normalizePath input ≠ []) :
    ((normalizePath input).splitOn '/' <+: (normalizePath path).splitOn '/'
        ↔ segments (normalizePath input) <+: segments (normalizePath path))
      ↔ (canonical input <+: canonical path → spelling input <+: spelling path) := by
  have hbare := bare_normalizePath input
  have hbare' := bare_normalizePath path
  by_cases hdot : normalizePath input = ['.']
  · have hlost : spelling input = [] := by rw [hinput.spelling_eq, if_pos (.inr hdot)]
    rw [hlost, hdot]
    refine iff_of_true ⟨segments_of_splitOn, fun h => ?_⟩ fun _ => List.nil_prefix
    have hsame : normalizePath path = ['.'] := (dot_prefix_iff hpath hbare').mp h
    exact hsame ▸ List.prefix_rfl
  · have hregular : ¬ (normalizePath input = [] ∨ normalizePath input = ['.']) :=
      not_or.mpr ⟨hnil, hdot⟩
    by_cases hq : normalizePath path = [] ∨ normalizePath path = ['.']
    · have hnot := not_segments_prefix hinput hbare hnil hdot hq
      refine iff_of_true (iff_of_false (fun h => hnot (segments_of_splitOn h)) hnot) fun h => ?_
      rw [hpath.canonical_eq_nil_iff.mpr hq, List.prefix_nil] at h
      exact absurd (hinput.canonical_eq_nil_iff.mp h) hregular
    · rw [hinput.canonical_eq, hpath.canonical_eq, hinput.spelling_eq, hpath.spelling_eq,
        if_neg hregular, if_neg hregular, if_neg hq, if_neg hq]
      exact ⟨Iff.mpr, fun h => ⟨segments_of_splitOn, h⟩⟩

/-- Paths with the same segments are matched alike, unless the pattern is a single dot and only one
of the paths spells it. -/
theorem alike_iff {input path path' : List Char} (hinput : Steady (normalizePath input))
    (hpath : Steady (normalizePath path)) (hpath' : Steady (normalizePath path'))
    (hnil : normalizePath input ≠ []) :
    (canonical path = canonical path' → (segments (normalizePath input)
        <+: segments (normalizePath path)
        ↔ segments (normalizePath input) <+: segments (normalizePath path')))
      ↔ (SpellsDot input → canonical path = [] → canonical path' = [] →
        (SpellsDot path ↔ SpellsDot path')) := by
  have hbare := bare_normalizePath path
  have hbare' := bare_normalizePath path'
  have hdots (hdot : normalizePath input = ['.']) :
      (segments (normalizePath input) <+: segments (normalizePath path)
        ↔ segments (normalizePath input) <+: segments (normalizePath path'))
      ↔ (SpellsDot path ↔ SpellsDot path') := by
    have hseg : segments ['.'] = [['.']] := rfl
    rw [hdot, hseg, dot_prefix_iff hpath hbare, dot_prefix_iff hpath' hbare', spellsDot_iff,
      spellsDot_iff]
  constructor
  · intro halike hdot hnone hnone'
    exact (hdots (spellsDot_iff.mp hdot)).mp (halike (hnone.trans hnone'.symm))
  · intro h heq
    by_cases hnone : canonical path = []
    · have hnone' := heq.symm.trans hnone
      by_cases hdot : normalizePath input = ['.']
      · exact (hdots hdot).mpr (h (spellsDot_iff.mpr hdot) hnone hnone')
      · have hnot {path : List Char} (hpath : Steady (normalizePath path))
            (hnone : canonical path = []) :
            ¬ segments (normalizePath input) <+: segments (normalizePath path) :=
          not_segments_prefix hinput (bare_normalizePath input) hnil hdot
            (hpath.canonical_eq_nil_iff.mp hnone)
        exact iff_of_false (hnot hpath hnone) (hnot hpath' hnone')
    · have hnone' : canonical path' ≠ [] := heq ▸ hnone
      rw [hpath.canonical_eq, if_neg (mt hpath.canonical_eq_nil_iff.mpr hnone), hpath'.canonical_eq,
        if_neg (mt hpath'.canonical_eq_nil_iff.mpr hnone')] at heq
      rw [heq]

/-- Nothing restarts, the pattern and the paths are separated alike, and a single dot is spelled by
both paths or by none. -/
structure SpelledWell (input path path' : String) : Prop where
  steady : ∀ s ∈ [input, path, path'], ¬ Restarts s.toList
  separators : ∀ s ∈ [path, path'], canonical input.toList <+: canonical s.toList →
    spelling input.toList <+: spelling s.toList
  dot : SpellsDot input.toList → canonical path.toList = [] → canonical path'.toList = [] →
    (SpellsDot path.toList ↔ SpellsDot path'.toList)

theorem forall_new_iff {input : String} {P : SparsePattern → Prop} : (∀ pattern ∈ new input,
    P pattern) ↔ (normalizePath input.toList ≠ [] → P ⟨normalizePath input.toList⟩) := by
  rw [new]
  cases normalizePath input.toList with
  | nil => simp
  | cons c text => simp

/-- **Paths are matched by their segments exactly when they are spelled well.** -/
theorem matchesBySegments_iff (input path path' : String) :
    MatchesBySegments input path path' ↔ SpelledWell input path path' := by
  have hidempotent : (∀ s ∈ [input, path, path'],
      normalizePath (normalizePath s.toList) = normalizePath s.toList)
      ↔ ∀ s ∈ [input, path, path'], ¬ Restarts s.toList :=
    forall₂_congr fun s _ => idempotent_iff
  by_cases hrestarts : ∀ s ∈ [input, path, path'], ¬ Restarts s.toList
  swap
  · exact iff_of_false (fun h => hrestarts (hidempotent.mp h.idempotent))
      fun h => hrestarts h.steady
  have hsteady {s : String} (hs : s ∈ [input, path, path']) : Steady (normalizePath s.toList) :=
    not_not.mp fun hnot => hrestarts s hs (restarts_iff.mpr hnot)
  have hinput := hsteady (s := input) (by simp)
  have hsegments : (∀ pattern ∈ new input, ∀ s ∈ [path, path'], pattern.matchesPath s = true ↔
      segments pattern.text <+: segments (normalizePath s.toList))
      ↔ ∀ s ∈ [path, path'], canonical input.toList <+: canonical s.toList →
        spelling input.toList <+: spelling s.toList := by
    rw [forall_new_iff]
    by_cases hnil : normalizePath input.toList = []
    · have hlost : spelling input.toList = [] := by rw [hinput.spelling_eq, if_pos (.inl hnil)]
      rw [hlost]
      exact iff_of_true (fun h => absurd hnil h) fun _ _ _ => List.nil_prefix
    · rw [imp_iff_right hnil]
      refine forall₂_congr fun s hs => ?_
      rw [matchesPath_iff, segments_iff hinput (hsteady (List.mem_cons_of_mem _ hs)) hnil]
  have halike (hsegments : ∀ pattern ∈ new input, ∀ s ∈ [path, path'],
      pattern.matchesPath s = true ↔
        segments pattern.text <+: segments (normalizePath s.toList)) :
      (canonical path.toList = canonical path'.toList → ∀ pattern ∈ new input,
        pattern.matchesPath path = pattern.matchesPath path')
      ↔ (SpellsDot input.toList → canonical path.toList = [] → canonical path'.toList = [] →
        (SpellsDot path.toList ↔ SpellsDot path'.toList)) := by
    rw [forall_new_iff] at hsegments ⊢
    by_cases hnil : normalizePath input.toList = []
    · have hdot : ¬ SpellsDot input.toList := by
        rw [spellsDot_iff, hnil]
        decide
      exact iff_of_true (fun _ h => absurd hnil h) fun h => absurd h hdot
    · rw [← alike_iff hinput (hsteady (s := path) (by simp)) (hsteady (s := path') (by simp)) hnil,
        imp_iff_right hnil, Bool.eq_iff_iff, hsegments hnil path (by simp),
        hsegments hnil path' (by simp)]
  constructor
  · intro h
    exact ⟨hrestarts, hsegments.mp h.matched, (halike h.matched).mp h.alike⟩
  · intro h
    have hmatches := hsegments.mpr h.separators
    exact ⟨hidempotent.mpr hrestarts, hmatches, (halike hmatches).mpr h.dot⟩

/-- A slash keeps the `./` behind it, and the path is not found under its directory. -/
theorem slash_keeps_dot : ¬ MatchesBySegments "a" "/./a" "a" := by
  intro h
  exact absurd (h.idempotent "/./a" (by simp)) (by decide +kernel)

end ArcVcs.SparsePattern
