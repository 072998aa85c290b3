import Mathlib.Data.List.Basic
import Mathlib.Data.Set.Function

/-!
# Self-delimiting encodings

Encodings that are read off the front of a list: what is encoded there is known, and so is the rest.
They are closed under concatenation, variants and length prefixes, and a list of them needs no
prefix where nothing follows it.
-/

variable {α α' β γ : Type*} {P Q : α → Prop}

theorem List.append_cons_inj_of_stop {stop : β} {l l' s s' : List β} (hl : stop ∉ l)
    (hl' : stop ∉ l') (heq : l ++ stop :: s = l' ++ stop :: s') : l = l' ∧ s = s' := by
  induction l generalizing l' with
  | nil =>
      cases l' with
      | nil => exact ⟨rfl, (List.cons_eq_cons.mp heq).2⟩
      | cons b l' =>
          rw [List.nil_append, List.cons_append, List.cons_eq_cons] at heq
          exact absurd (heq.1 ▸ List.mem_cons_self) hl'
  | cons b l ih =>
      cases l' with
      | nil =>
          rw [List.nil_append, List.cons_append, List.cons_eq_cons] at heq
          exact absurd (heq.1 ▸ List.mem_cons_self) hl
      | cons b' l' =>
          rw [List.cons_append, List.cons_append, List.cons_eq_cons] at heq
          obtain ⟨rfl, htail⟩ := heq
          obtain ⟨rfl, hrest⟩ := ih (fun h => hl (.tail _ h)) (fun h => hl' (.tail _ h)) htail
          exact ⟨rfl, hrest⟩

/-- Two values with the property and two rests that give one list are the same. -/
def SelfDelimiting (enc : α → List β) (P : α → Prop) : Prop :=
  ∀ a a' s s', P a → P a' → enc a ++ s = enc a' ++ s' → a = a' ∧ s = s'

namespace SelfDelimiting

variable {enc : α → List β} {enc' : α' → List β} {P' : α' → Prop}

theorem injOn (h : SelfDelimiting enc P) : Set.InjOn enc {a | P a} := by
  intro a ha a' ha' heq
  exact (h a a' [] [] ha ha' (by rw [heq])).1

theorem mono (h : SelfDelimiting enc P) (hQ : ∀ a, Q a → P a) : SelfDelimiting enc Q :=
  fun a a' s s' ha ha' => h a a' s s' (hQ a ha) (hQ a' ha')

theorem of_length {n : ℕ} (hinj : Set.InjOn enc {a | P a}) (hlen : ∀ a, P a → (enc a).length = n) :
    SelfDelimiting enc P := by
  intro a a' s s' ha ha' heq
  obtain ⟨henc, hrest⟩ := List.append_inj heq ((hlen a ha).trans (hlen a' ha').symm)
  exact ⟨hinj ha ha' henc, hrest⟩

theorem comap (h : SelfDelimiting enc P) {f : γ → α} (hf : Function.Injective f) :
    SelfDelimiting (fun c => enc (f c)) fun c => P (f c) := by
  intro c c' s s' hc hc' heq
  obtain ⟨hfield, hrest⟩ := h _ _ s s' hc hc' heq
  exact ⟨hf hfield, hrest⟩

theorem append (h : SelfDelimiting enc P) (h' : SelfDelimiting enc' P') :
    SelfDelimiting (fun p : α × α' => enc p.1 ++ enc' p.2) fun p => P p.1 ∧ P' p.2 := by
  rintro p p' s s' ⟨hp, hq⟩ ⟨hp', hq'⟩ heq
  rw [List.append_assoc, List.append_assoc] at heq
  obtain ⟨hfirst, hsecond⟩ := h _ _ _ _ hp hp' heq
  obtain ⟨hsecond, hrest⟩ := h' _ _ _ _ hq hq' hsecond
  exact ⟨Prod.ext hfirst hsecond, hrest⟩

theorem image (h : SelfDelimiting enc' P') (mk : α' → α) (henc : ∀ c, enc (mk c) = enc' c)
    (hmk : ∀ a, P a → ∃ c, P' c ∧ mk c = a) : SelfDelimiting enc P := by
  intro a a' s s' ha ha' heq
  obtain ⟨c, hc, rfl⟩ := hmk a ha
  obtain ⟨c', hc', rfl⟩ := hmk a' ha'
  rw [henc, henc] at heq
  obtain ⟨rfl, hrest⟩ := h c c' s s' hc hc' heq
  exact ⟨rfl, hrest⟩

theorem variants {tag : α → γ} {tagEnc : γ → List β} {fields : α → List β} {T : γ → Prop}
    (htag : SelfDelimiting tagEnc T)
    (hfields : ∀ a, SelfDelimiting fields fun b => P b ∧ tag b = tag a) :
    SelfDelimiting (fun a => tagEnc (tag a) ++ fields a) fun a => P a ∧ T (tag a) := by
  rintro a a' s s' ⟨ha, ht⟩ ⟨ha', ht'⟩ heq
  rw [List.append_assoc, List.append_assoc] at heq
  obtain ⟨hsame, heq⟩ := htag _ _ _ _ ht ht' heq
  exact hfields a a a' s s' ⟨ha, rfl⟩ ⟨ha', hsame.symm⟩ heq

theorem flatMap (h : SelfDelimiting enc P) (n : ℕ) :
    SelfDelimiting (List.flatMap enc) fun l => l.length = n ∧ ∀ a ∈ l, P a := by
  induction n with
  | zero =>
      rintro l l' s s' ⟨hl, -⟩ ⟨hl', -⟩ heq
      obtain rfl := List.length_eq_zero_iff.mp hl
      obtain rfl := List.length_eq_zero_iff.mp hl'
      exact ⟨rfl, heq⟩
  | succ n ih =>
      rintro l l' s s' ⟨hl, hP⟩ ⟨hl', hP'⟩ heq
      obtain ⟨a, l, rfl⟩ := List.exists_cons_of_length_eq_add_one hl
      obtain ⟨a', l', rfl⟩ := List.exists_cons_of_length_eq_add_one hl'
      rw [List.flatMap_cons, List.flatMap_cons, List.append_assoc, List.append_assoc] at heq
      rw [List.forall_mem_cons] at hP hP'
      obtain ⟨rfl, htail⟩ := h _ _ _ _ hP.1 hP'.1 heq
      obtain ⟨rfl, hrest⟩ := ih l l' s s' ⟨by simpa using hl, hP.2⟩ ⟨by simpa using hl', hP'.2⟩
        htail
      exact ⟨rfl, hrest⟩

theorem prefixed (h : SelfDelimiting enc P) {lenEnc : ℕ → List β} {N : ℕ → Prop}
    (hlen : SelfDelimiting lenEnc N) :
    SelfDelimiting (fun l : List α => lenEnc l.length ++ l.flatMap enc)
      fun l => (∀ a ∈ l, P a) ∧ N l.length := by
  refine variants hlen fun l => (h.flatMap l.length).mono ?_
  exact fun l' hl => ⟨hl.2, hl.1⟩

theorem terminated {stop : β} (hinj : Set.InjOn enc {a | P a}) (hstop : ∀ a, P a → stop ∉ enc a) :
    SelfDelimiting (fun a => enc a ++ [stop]) P := by
  intro a a' s s' ha ha' heq
  rw [List.append_assoc, List.append_assoc] at heq
  obtain ⟨henc, hrest⟩ := List.append_cons_inj_of_stop (hstop a ha) (hstop a' ha') heq
  exact ⟨hinj ha ha' henc, hrest⟩

theorem injOn_flatMap (h : SelfDelimiting enc P) (hne : ∀ a, P a → enc a ≠ []) :
    Set.InjOn (List.flatMap enc) {l | ∀ a ∈ l, P a} := by
  intro l hl l' hl' heq
  induction l generalizing l' with
  | nil =>
      cases l' with
      | nil => rfl
      | cons a' l' =>
          have hnil := (List.append_eq_nil_iff.mp (heq.symm.trans List.flatMap_nil)).1
          exact absurd hnil (hne a' (hl' a' List.mem_cons_self))
  | cons a l ih =>
      cases l' with
      | nil =>
          have hnil := (List.append_eq_nil_iff.mp (heq.trans List.flatMap_nil)).1
          exact absurd hnil (hne a (hl a List.mem_cons_self))
      | cons a' l' =>
          obtain ⟨hhead, hall⟩ := List.forall_mem_cons.mp hl
          obtain ⟨hhead', hall'⟩ := List.forall_mem_cons.mp hl'
          obtain ⟨rfl, htail⟩ := h _ _ _ _ hhead hhead' heq
          rw [ih hall hall' htail]

end SelfDelimiting
