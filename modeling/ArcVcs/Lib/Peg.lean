import Mathlib.Data.List.DropRight

/-!
# Parsing expressions

Recognisers that read a prefix and never take a choice back, where blanks may stand between the
parts of a sequence. A parser is compared with the texts that a rule describes in two halves:
what it reads is such a text, and such a text is read up to the blanks that follow it.
-/

namespace Peg

abbrev Parser (τ α : Type) := List τ → Option (α × List τ)

variable {τ α β : Type} (blank : τ → Bool)

def skip (s : List τ) : List τ := s.dropWhile blank

def Blank (s : List τ) : Prop := ∀ c ∈ s, blank c = true

/-- The next token after blanks, if there is one, is among `stops`. -/
def Follows (stops : τ → Prop) (s : List τ) : Prop := ∀ c ∈ (skip blank s).head?, stops c

section Parsers

variable [DecidableEq τ]

def tok (t : τ) : Parser τ Unit
  | [] => none
  | c :: cs => if c = t then some ((), cs) else none

/-- One token or more of a class, without blanks between them. -/
def plus (ok : τ → Bool) : Parser τ (List τ) := fun s =>
  if s.takeWhile ok = [] then none else some (s.takeWhile ok, s.dropWhile ok)

/-- The second parser is tried where the first one fails. -/
def alt (p q : Parser τ α) : Parser τ α := fun s => (p s).or (q s)

def seq (p : Parser τ α) (q : Parser τ β) : Parser τ (α × β) := fun s => do
  let (a, rest) ← p s
  let (b, rest) ← q (skip blank rest)
  some ((a, b), rest)

def opt (p : Parser τ α) : Parser τ (Option α) := fun s =>
  match p s with
  | none => some (none, s)
  | some (a, rest) => some (some a, rest)

def map (f : α → β) (p : Parser τ α) : Parser τ β := fun s =>
  (p s).map fun r => (f r.1, r.2)

def repeatFrom (p : Parser τ α) : ℕ → List τ → List α × List τ
  | 0, s => ([], s)
  | n + 1, s =>
      match p (skip blank s) with
      | none => ([], s)
      | some (a, rest) =>
          let (as, rest) := repeatFrom p n rest
          (a :: as, rest)

/-- As often as the parser reads something. -/
def many (p : Parser τ α) : Parser τ (List α) := fun s => some (repeatFrom blank p s.length s)

/-- An element behind a separator. -/
def item (op : τ) (p : Parser τ α) : Parser τ α := map Prod.snd (seq blank (tok op) p)

/-- One element or more with a separator between any two. -/
def sepBy (op : τ) (p : Parser τ α) : Parser τ (α × List α) :=
  seq blank p (many blank (item blank op p))

end Parsers

/-! ## Blanks -/

variable {blank} {s t sp sp' cs rest : List τ} {stops : τ → Prop} {c : τ}

theorem Blank.nil : Blank blank [] := by simp [Blank]

theorem Blank.append (h : Blank blank sp) (h' : Blank blank sp') : Blank blank (sp ++ sp') :=
  fun c hc => (List.mem_append.mp hc).elim (h c) (h' c)

theorem skip_blank_append (h : Blank blank sp) (s : List τ) :
    skip blank (sp ++ s) = skip blank s := by
  induction sp with
  | nil => rfl
  | cons c sp ih =>
      have hc : blank c = true := h c List.mem_cons_self
      rw [List.cons_append, skip, List.dropWhile_cons_of_pos hc]
      exact ih fun d hd => h d (List.mem_cons_of_mem c hd)

theorem skip_cons_of_not (h : blank c = false) (s : List τ) : skip blank (c :: s) = c :: s := by
  rw [skip, List.dropWhile_cons_of_neg (by simp [h])]

theorem skip_skip (s : List τ) : skip blank (skip blank s) = skip blank s :=
  List.dropWhile_idempotent blank s

theorem exists_blank (blank : τ → Bool) (s : List τ) :
    ∃ sp, Blank blank sp ∧ s = sp ++ skip blank s :=
  ⟨s.takeWhile blank, fun _ hc => List.mem_takeWhile_imp hc,
    (List.takeWhile_append_dropWhile).symm⟩

theorem Follows.of_skip (h : skip blank s = skip blank t) (hs : Follows blank stops s) :
    Follows blank stops t := by
  rw [Follows, ← h]
  exact hs

theorem Follows.of_blank (h : Blank blank sp) (hs : Follows blank stops s) :
    Follows blank stops (sp ++ s) :=
  hs.of_skip (skip_blank_append h s).symm

theorem Follows.mono {stops' : τ → Prop} (hs : Follows blank stops s)
    (h : ∀ c, stops c → stops' c) : Follows blank stops' s :=
  fun c hc => h c (hs c hc)

theorem follows_nil : Follows blank stops [] := by simp [Follows, skip]

theorem follows_cons (hc : stops c) (h : blank c = false) : Follows blank stops (c :: s) := by
  intro d hd
  rw [skip_cons_of_not h] at hd
  obtain rfl : c = d := by simpa using hd
  exact hc

theorem Follows.head (hs : Follows blank stops (c :: s)) : blank c = true ∨ stops c := by
  cases h : blank c with
  | true => exact .inl rfl
  | false => exact .inr (hs c (by rw [skip_cons_of_not h]; simp))

/-! ## Parsers and texts -/

variable (blank) in
/-- What the parser reads is a text of the rule, perhaps with blanks after it. -/
def Sound (p : Parser τ α) (P : α → List τ → Prop) : Prop :=
  ∀ s a rest, p s = some (a, rest) → ∃ cs sp, P a cs ∧ Blank blank sp ∧ s = cs ++ (sp ++ rest)

variable (blank) in
/-- Before a stop, the parser reads every text of the rule. -/
def Complete (p : Parser τ α) (P : α → List τ → Prop) (stops : τ → Prop) : Prop :=
  ∀ a cs rest, P a cs → Follows blank stops rest →
    ∃ rest', p (cs ++ rest) = some (a, rest') ∧ skip blank rest' = skip blank rest

variable {P : α → List τ → Prop} {op : τ} {a : α} {as : List α} {inner outer : τ → Prop}

variable (blank) in
/-- The elements after the first one, each behind a separator. -/
inductive Tail (op : τ) (P : α → List τ → Prop) : List α → List τ → Prop where
  | nil : Tail op P [] []
  | cons {a : α} {as : List α} {sp sp' cs ds : List τ} : Blank blank sp → Blank blank sp' →
      P a cs → Tail op P as ds → Tail op P (a :: as) (sp ++ op :: (sp' ++ (cs ++ ds)))

variable (blank) in
def Separated (op : τ) (P : α → List τ → Prop) (elements : α × List α) (text : List τ) : Prop :=
  ∃ cs ds, P elements.1 cs ∧ Tail blank op P elements.2 ds ∧ text = cs ++ ds

/-- Blanks before a tail belong to its first separator, or else to what follows. -/
theorem Tail.shift {as : List α} {ds sp sp' : List τ} (h : Tail blank op P as ds)
    (hsp : Blank blank sp) (hsp' : Blank blank sp') :
    ∃ ds' sp'', Tail blank op P as ds' ∧ Blank blank sp'' ∧ sp ++ (ds ++ sp') = ds' ++ sp'' := by
  cases h with
  | nil => exact ⟨[], sp ++ sp', .nil, hsp.append hsp', by simp⟩
  | cons h₁ h₂ hP htail =>
      exact ⟨_, sp', .cons (hsp.append h₁) h₂ hP htail, hsp', by simp⟩

theorem Tail.map {β : Type} {Q : β → List τ → Prop} (f : α → β) {ds : List τ}
    (h : Tail blank op P as ds) (hf : ∀ a cs, P a cs → cs.length < ds.length → Q (f a) cs) :
    Tail blank op Q (as.map f) ds := by
  induction h with
  | nil => exact .nil
  | @cons a as sp sp' cs ds h₁ h₂ hP htail ih =>
      refine .cons h₁ h₂ (hf a cs hP (by simp; omega)) (ih fun b bs hb hlt => hf b bs hb ?_)
      simp only [List.length_append, List.length_cons]
      omega

/-- A list of elements carries over to the images of the elements. -/
theorem Separated.map {β : Type} {Q : β → List τ → Prop} (f : α → β) {text : List τ}
    (h : Separated blank op P (a, as) text)
    (hf : ∀ a cs, P a cs → cs.length ≤ text.length → Q (f a) cs) :
    Separated blank op Q (f a, as.map f) text := by
  obtain ⟨cs, ds, hP, htail, rfl⟩ := h
  refine ⟨cs, ds, hf a cs hP (by simp), htail.map f fun b bs hb hlt => hf b bs hb ?_, rfl⟩
  simp only [List.length_append]
  omega

theorem Separated.mono {Q : α → List τ → Prop} {text : List τ}
    (h : Separated blank op P (a, as) text)
    (hPQ : ∀ a cs, P a cs → cs.length ≤ text.length → Q a cs) :
    Separated blank op Q (a, as) text := by
  have hQ := h.map id hPQ
  rwa [List.map_id] at hQ

theorem Tail.of_map {β : Type} {Q : β → List τ → Prop} {f : α → β} {bs : List β} {ds : List τ}
    (h : Tail blank op Q bs ds) (hbs : bs = as.map f) :
    Tail blank op (fun a cs => Q (f a) cs) as ds := by
  induction h generalizing as with
  | nil =>
      obtain rfl := List.map_eq_nil_iff.mp hbs.symm
      exact .nil
  | cons h₁ h₂ hQ htail ih =>
      obtain ⟨a, as', rfl, rfl, hrest⟩ := List.map_eq_cons_iff.mp hbs.symm
      exact .cons h₁ h₂ hQ (ih hrest.symm)

theorem Separated.of_map {β : Type} {Q : β → List τ → Prop} {f : α → β} {text : List τ}
    (h : Separated blank op Q (f a, as.map f) text) :
    Separated blank op (fun a cs => Q (f a) cs) (a, as) text := by
  obtain ⟨cs, ds, hQ, htail, rfl⟩ := h
  exact ⟨cs, ds, hQ, htail.of_map rfl, rfl⟩

theorem Tail.exists_text {ds : List τ} (h : Tail blank op P as ds) (ha : a ∈ as) :
    ∃ cs, P a cs := by
  induction h with
  | nil => cases ha
  | cons h₁ h₂ hP htail ih =>
      rcases List.mem_cons.mp ha with rfl | ha
      · exact ⟨_, hP⟩
      · exact ih ha

theorem Separated.exists_text {text : List τ} {b : α}
    (h : Separated blank op P (a, as) text) (hb : b ∈ a :: as) : ∃ cs, P b cs := by
  obtain ⟨cs, ds, hP, htail, -⟩ := h
  rcases List.mem_cons.mp hb with rfl | hb
  · exact ⟨cs, hP⟩
  · exact htail.exists_text hb

theorem Tail.length_le {ds : List τ} (h : Tail blank op P as ds) : as.length ≤ ds.length := by
  induction h with
  | nil => exact le_rfl
  | cons h₁ h₂ hP htail ih =>
      simp only [List.length_cons, List.length_append]
      omega

/-- The separator is no blank, ends an element, and does not follow the whole. -/
structure Separates (blank : τ → Bool) (op : τ) (inner outer : τ → Prop) : Prop where
  notBlank : blank op = false
  inner_op : inner op
  inner_of_outer : ∀ c, outer c → inner c
  not_outer : ¬ outer op

theorem Tail.follows (hsep : Separates blank op inner outer) {ds : List τ}
    (h : Tail blank op P as ds) (hrest : Follows blank outer rest) :
    Follows blank inner (ds ++ rest) := by
  cases h with
  | nil => exact hrest.mono hsep.inner_of_outer
  | cons h₁ h₂ hP htail =>
      rw [List.append_assoc]
      exact .of_blank h₁ (follows_cons hsep.inner_op hsep.notBlank)

/-- Blanks at the start change nothing for a repetition but what a repetition of nothing
leaves. -/
theorem repeatFrom_congr (q : Parser τ α) (n : ℕ) (h : skip blank s = skip blank t) :
    (repeatFrom blank q n s).1 = (repeatFrom blank q n t).1
      ∧ skip blank (repeatFrom blank q n s).2 = skip blank (repeatFrom blank q n t).2 := by
  cases n with
  | zero => exact ⟨rfl, h⟩
  | succ n =>
      rw [repeatFrom, repeatFrom, h]
      cases q (skip blank t) with
      | none => exact ⟨rfl, h⟩
      | some r => exact ⟨rfl, rfl⟩

variable [DecidableEq τ] {p : Parser τ α}

omit [DecidableEq τ] in
theorem plus_eq_some {ok : τ → Bool} {xs : List τ} (h : plus ok s = some (xs, rest)) :
    xs ≠ [] ∧ (∀ c ∈ xs, ok c = true) ∧ s = xs ++ rest := by
  rw [plus] at h
  split_ifs at h with hempty
  cases h
  exact ⟨hempty, fun c hc => List.mem_takeWhile_imp hc, List.takeWhile_append_dropWhile.symm⟩

omit [DecidableEq τ] in
theorem plus_append {ok : τ → Bool} {xs : List τ} (hne : xs ≠ []) (hall : ∀ c ∈ xs, ok c = true)
    (hstop : ∀ c ∈ rest.head?, ok c = false) : plus ok (xs ++ rest) = some (xs, rest) := by
  have hrest : rest.takeWhile ok = [] ∧ rest.dropWhile ok = rest := by
    cases rest with
    | nil => exact ⟨rfl, rfl⟩
    | cons c rest =>
        have hc := hstop c rfl
        simp [hc]
  rw [plus, List.takeWhile_append_of_pos hall, List.dropWhile_append_of_pos hall, hrest.1,
    hrest.2, List.append_nil, if_neg hne]

omit [DecidableEq τ] in
theorem Sound.map {Q : β → List τ → Prop} {f : α → β} (h : Sound blank p P)
    (hf : ∀ a cs, P a cs → Q (f a) cs) : Sound blank (map f p) Q := by
  intro s b rest hread
  obtain ⟨⟨a, rest'⟩, hp, heq⟩ := Option.map_eq_some_iff.mp hread
  cases heq
  obtain ⟨cs, sp, hP, hsp, hs⟩ := h _ _ _ hp
  exact ⟨cs, sp, hf a cs hP, hsp, hs⟩

omit [DecidableEq τ] in
theorem Sound.alt {q : Parser τ α} (hp : Sound blank p P) (hq : Sound blank q P) :
    Sound blank (alt p q) P := by
  intro s a rest hread
  rcases Option.or_eq_some_iff.mp hread with h | ⟨-, h⟩
  · exact hp _ _ _ h
  · exact hq _ _ _ h

theorem tok_self (t : τ) (s : List τ) : tok t (t :: s) = some ((), s) := by simp [tok]

theorem tok_eq_some {t : τ} (h : tok t s = some ((), rest)) : s = t :: rest := by
  cases s with
  | nil => cases h
  | cons c s =>
      by_cases hc : c = t
      · rw [tok, if_pos hc] at h
        cases h
        rw [hc]
      · rw [tok, if_neg hc] at h
        cases h

theorem tok_eq_none {t : τ} (h : s.head? ≠ some t) : tok t s = none := by
  cases s with
  | nil => rfl
  | cons c s => exact if_neg fun hc => h (by rw [hc]; rfl)

theorem item_eq_some (h : item blank op p s = some (a, rest)) :
    ∃ s', s = op :: s' ∧ p (skip blank s') = some (a, rest) := by
  simp only [item, map, seq, Option.map_eq_some_iff, Option.bind_eq_bind,
    Option.bind_eq_some_iff] at h
  obtain ⟨r, ⟨⟨u, s'⟩, htok, ⟨b, rest'⟩, hp, hr⟩, heq⟩ := h
  cases hr
  cases heq
  exact ⟨s', tok_eq_some htok, hp⟩

theorem item_cons (s : List τ) :
    item blank op p (op :: s) = p (skip blank s) := by
  simp only [item, map, seq, tok_self, Option.bind_eq_bind, Option.bind_some]
  cases p (skip blank s) <;> rfl

theorem item_eq_none (h : s.head? ≠ some op) :
    item blank op p s = none := by
  simp [item, map, seq, tok_eq_none h]

theorem Sound.repeatFrom (op : τ) (h : Sound blank p P) (n : ℕ) (s : List τ) :
    ∃ cs sp, Tail blank op P
        (repeatFrom blank (item blank op p) n s).1 cs ∧ Blank blank sp
      ∧ s = cs ++ (sp ++ (Peg.repeatFrom blank (item blank op p) n s).2) := by
  induction n generalizing s with
  | zero => exact ⟨[], [], .nil, .nil, rfl⟩
  | succ n ih =>
      rw [Peg.repeatFrom]
      cases hitem : item blank op p (skip blank s) with
      | none => exact ⟨[], [], .nil, .nil, rfl⟩
      | some r =>
          obtain ⟨a, rest⟩ := r
          obtain ⟨sp, hsp, hs⟩ := exists_blank blank s
          obtain ⟨s', hs', hp⟩ := item_eq_some hitem
          obtain ⟨sp', hsp', hs''⟩ := exists_blank blank s'
          obtain ⟨cs, spc, hP, hspc, hread⟩ := h _ _ _ hp
          obtain ⟨ds, spd, htail, hspd, hrest⟩ := ih rest
          obtain ⟨ds', sp'', htail', hsp'', heq⟩ := htail.shift hspc hspd
          refine ⟨_, sp'', .cons hsp hsp' hP htail', hsp'', ?_⟩
          have hmove : spc ++ rest = ds' ++ (sp'' ++
              (Peg.repeatFrom blank (item blank op p) n rest).2) := by
            rw [← List.append_assoc ds', ← heq]
            simpa using congrArg (spc ++ ·) hrest
          rw [hs, hs', hs'', hread, hmove]
          simp

theorem Sound.sepBy (h : Sound blank p P) :
    Sound blank (sepBy blank op p) (Separated blank op P) := by
  rintro s ⟨a, as⟩ rest hread
  simp only [Peg.sepBy, seq, many, Option.bind_eq_bind, Option.bind_eq_some_iff] at hread
  obtain ⟨⟨b, rest₁⟩, hp, ⟨bs, rest₂⟩, hmany, heq⟩ := hread
  obtain ⟨⟨rfl, rfl⟩, rfl⟩ : (b = a ∧ bs = as) ∧ rest₂ = rest := by simpa using heq
  obtain ⟨cs, sp, hP, hsp, hs⟩ := h _ _ _ hp
  obtain ⟨sp₁, hsp₁, hrest₁⟩ := exists_blank blank rest₁
  obtain ⟨ds, sp₂, htail, hsp₂, hskip⟩ :=
    h.repeatFrom op (skip blank rest₁).length (skip blank rest₁)
  rw [Option.some.inj hmany] at htail hskip
  obtain ⟨ds', sp', htail', hsp', heq⟩ := htail.shift (hsp.append hsp₁) hsp₂
  refine ⟨cs ++ ds', sp', ⟨cs, ds', hP, htail', rfl⟩, hsp', ?_⟩
  have hmove : sp ++ (sp₁ ++ skip blank rest₁) = ds' ++ (sp' ++ rest₂) := by
    rw [← List.append_assoc ds', ← heq]
    simpa using congrArg (fun t => sp ++ (sp₁ ++ t)) hskip
  rw [hs, hrest₁, hmove, List.append_assoc]

theorem Complete.repeatFrom (h : Complete blank p P inner)
    (hfirst : ∀ a cs, P a cs → ∀ s, skip blank (cs ++ s) = cs ++ s)
    (hsep : Separates blank op inner outer) {ds : List τ} (htail : Tail blank op P as ds) (n : ℕ)
    (hn : as.length ≤ n) (hrest : Follows blank outer rest) :
    (repeatFrom blank (item blank op p) n (ds ++ rest)).1 = as
      ∧ skip blank (Peg.repeatFrom blank (item blank op p) n
          (ds ++ rest)).2 = skip blank rest := by
  induction htail generalizing n with
  | nil =>
      cases n with
      | zero => exact ⟨rfl, rfl⟩
      | succ n =>
          have hno : (skip blank rest).head? ≠ some op :=
            fun hop => hsep.not_outer (hrest op hop)
          rw [List.nil_append, Peg.repeatFrom, item_eq_none hno]
          exact ⟨rfl, rfl⟩
  | @cons a as sp sp' cs ds hsp hsp' hP htail ih =>
      obtain ⟨n, rfl⟩ : ∃ m, n = m + 1 := ⟨n - 1, by simp at hn; omega⟩
      obtain ⟨rest', hread, hskip⟩ := h a cs (ds ++ rest) hP (htail.follows hsep hrest)
      have hitem : item blank op p
          (skip blank (sp ++ op :: (sp' ++ (cs ++ ds)) ++ rest)) = some (a, rest') := by
        rw [List.append_assoc, skip_blank_append hsp, List.cons_append,
          skip_cons_of_not hsep.notBlank, item_cons, List.append_assoc, skip_blank_append hsp',
          List.append_assoc, hfirst a cs hP, hread]
      obtain ⟨hfst, hsnd⟩ := repeatFrom_congr (item blank op p) n hskip
      obtain ⟨ih₁, ih₂⟩ := ih n (by simpa using hn)
      rw [Peg.repeatFrom, hitem]
      exact ⟨congrArg (a :: ·) (hfst.trans ih₁), hsnd.trans ih₂⟩

theorem Complete.sepBy (h : Complete blank p P inner)
    (hfirst : ∀ a cs, P a cs → ∀ s, skip blank (cs ++ s) = cs ++ s)
    (hsep : Separates blank op inner outer) :
    Complete blank (sepBy blank op p) (Separated blank op P) outer := by
  rintro ⟨a, as⟩ text rest ⟨cs, ds, hP, htail, rfl⟩ hrest
  obtain ⟨rest₁, hread, hskip⟩ := h a cs (ds ++ rest) hP (htail.follows hsep hrest)
  have hlength : as.length ≤ (skip blank rest₁).length := by
    rw [hskip]
    cases htail with
    | nil => exact Nat.zero_le _
    | cons h₁ h₂ hP' htail' =>
        rw [List.append_assoc, skip_blank_append h₁, List.cons_append,
          skip_cons_of_not hsep.notBlank]
        have := htail'.length_le
        simp only [List.length_cons, List.length_append]
        omega
  obtain ⟨hfst, hsnd⟩ := repeatFrom_congr (item blank op p)
    (skip blank rest₁).length ((skip_skip rest₁).trans hskip)
  obtain ⟨htail₁, htail₂⟩ := h.repeatFrom hfirst hsep htail _ hlength hrest
  refine ⟨_, ?_, hsnd.trans htail₂⟩
  rw [List.append_assoc, Peg.sepBy, seq, hread]
  simp only [Option.bind_eq_bind, Option.bind_some, many, hfst, htail₁]

end Peg
