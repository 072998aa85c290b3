import ArcVcs.Lib.Peg
import ArcVcs.Revset

/-!
# The text of a revset

The parser of `arc-revset`: the rules of its grammar as parsing expressions, and the folds that
make an expression of what they read. It is compared with the texts that spell an expression.
-/

namespace ArcVcs

namespace RevsetText

open Peg

inductive ParseError where
  /-- What the generated parser reports. -/
  | unexpected
  | invalidLiteral (raw : List Char)
  | unterminatedEscape
  | unsupportedEscape (other : Char)
deriving DecidableEq

abbrev Built := Except ParseError RevsetExpression

/-! ## Building -/

/-- The loop of `unescape_string_literal`. -/
def unescapeChars : List Char → Except ParseError (List Char)
  | [] => .ok []
  | ['\\'] => .error .unterminatedEscape
  | '\\' :: '\\' :: chars => (unescapeChars chars).map ('\\' :: ·)
  | '\\' :: '"' :: chars => (unescapeChars chars).map ('"' :: ·)
  | '\\' :: other :: _ => .error (.unsupportedEscape other)
  | ch :: chars => (unescapeChars chars).map (ch :: ·)

def unescapeStringLiteral (raw : List Char) : Except ParseError (List Char) :=
  if raw.length < 2 ∨ raw.head? ≠ some '"' ∨ raw.getLast? ≠ some '"' then
    .error (.invalidLiteral raw)
  else unescapeChars raw.tail.dropLast

def buildLiteral (raw : List Char) : Built :=
  (unescapeStringLiteral raw).map fun value => .stringLiteral (.ofList value)

def buildSymbol (name : List Char) : Built := .ok (.symbol (.ofList name))

def buildChain (mk : RevsetExpression → RevsetExpression → RevsetExpression)
    (parts : Built × List Built) : Built := do
  let first ← parts.1
  parts.2.foldlM (fun acc next => do let next ← next; pure (mk acc next)) first

def buildArgs : Option (Built × List Built) → Except ParseError (List RevsetExpression)
  | none => .ok []
  | some (arg, args) => (arg :: args).mapM id

def buildFunction (name : List Char) (args : Option (Built × List Built)) : Built :=
  (buildArgs args).map fun args => .function (.ofList name) args

/-! ## The grammar -/

/-- `WHITESPACE`. -/
def blank (c : Char) : Bool := c = ' '

def symbolChar (c : Char) : Bool := c.isAlphanum || c = '_' || c = '@'

def symbol : Parser Char (List Char) := plus symbolChar

/-- The inside of a literal with what follows its closing quote. -/
def literalBody : List Char → Option (List Char × List Char)
  | [] => none
  | '\\' :: '\\' :: cs => (literalBody cs).map fun r => ('\\' :: '\\' :: r.1, r.2)
  | '\\' :: '"' :: cs => (literalBody cs).map fun r => ('\\' :: '"' :: r.1, r.2)
  | '"' :: cs => some ([], cs)
  | c :: cs => (literalBody cs).map fun r => (c :: r.1, r.2)

def stringLiteral : Parser Char (List Char)
  | '"' :: cs => (literalBody cs).map fun r => ('"' :: r.1 ++ ['"'], r.2)
  | _ => none

section Rules

variable (expression : Parser Char Built)

def functionCall : Parser Char Built :=
  map (fun parts => buildFunction parts.1 parts.2.2.1) (seq blank symbol (seq blank (tok '(')
    (seq blank (opt (sepBy blank ',' expression)) (tok ')'))))

def group : Parser Char Built :=
  map (fun parts => parts.2.1) (seq blank (tok '(') (seq blank expression (tok ')')))

def primary : Parser Char Built :=
  alt (functionCall expression)
    (alt (map buildLiteral stringLiteral)
      (alt (map buildSymbol symbol) (group expression)))

def intersection : Parser Char Built :=
  map (buildChain .intersection) (sepBy blank '&' (primary expression))

def union : Parser Char Built :=
  map (buildChain .union) (sepBy blank '|' (intersection expression))

end Rules

/-- The rule `expression`, to a given depth of parentheses. -/
def expression : ℕ → Parser Char Built
  | 0 => fun _ => none
  | depth + 1 => union (expression depth)

def query (input : List Char) : Option Built :=
  match expression (input.length + 1) (skip blank input) with
  | none => none
  | some (built, rest) => if skip blank rest = [] then some built else none

def parse (input : String) : Built :=
  match query input.toList with
  | none => .error .unexpected
  | some built => built

/-! ## Spellings -/

def escape (c : Char) : List Char := if c = '\\' ∨ c = '"' then ['\\', c] else [c]

def quoted (value : List Char) : List Char := '"' :: (value.flatMap escape ++ ['"'])

def IsSymbol (name : List Char) : Prop := name ≠ [] ∧ ∀ c ∈ name, symbolChar c = true

section Spellings

variable (P : RevsetExpression → List Char → Prop)

inductive ArgsText : List RevsetExpression → List Char → Prop where
  | none : ArgsText [] []
  | some {arg : RevsetExpression} {args : List RevsetExpression} {cs : List Char} :
      Separated blank ',' P (arg, args) cs → ArgsText (arg :: args) cs

inductive PrimaryText : RevsetExpression → List Char → Prop where
  | symbol {name : List Char} : IsSymbol name → PrimaryText (.symbol (.ofList name)) name
  | literal (value : List Char) : PrimaryText (.stringLiteral (.ofList value)) (quoted value)
  | group {e : RevsetExpression} {sp sp' cs : List Char} : Blank blank sp → Blank blank sp' →
      P e cs → PrimaryText e ('(' :: (sp ++ (cs ++ (sp' ++ [')']))))
  | function {name sp sp' sp'' cs : List Char} {args : List RevsetExpression} :
      IsSymbol name → Blank blank sp → Blank blank sp' → Blank blank sp'' → ArgsText P args cs →
      PrimaryText (.function (.ofList name) args)
        (name ++ (sp ++ '(' :: (sp' ++ (cs ++ (sp'' ++ [')'])))))

/-- Operands of one operator, which associates to the left. -/
def ChainText (op : Char) (mk : RevsetExpression → RevsetExpression → RevsetExpression)
    (e : RevsetExpression) (cs : List Char) : Prop :=
  ∃ first rest, Separated blank op P (first, rest) cs ∧ e = rest.foldl mk first

end Spellings

/-- An intersection binds tighter than a union. -/
def UnionText (P : RevsetExpression → List Char → Prop) :
    RevsetExpression → List Char → Prop :=
  ChainText (ChainText (PrimaryText P) '&' .intersection) '|' .union

/-- The text spells the expression, with parentheses to a given depth. -/
def Spells : ℕ → RevsetExpression → List Char → Prop
  | 0 => fun _ _ => False
  | depth + 1 => UnionText (Spells depth)

/-- A spelling of the expression between blanks. -/
def Reads (input : String) (e : RevsetExpression) : Prop :=
  ∃ depth sp cs sp', Blank blank sp ∧ Blank blank sp' ∧ Spells depth e cs
    ∧ input.toList = sp ++ (cs ++ sp')

/-! ## Folds of results -/

/-- A list of results is without errors, or it has a first error. -/
theorem exists_ok_or_error {ε α : Type} (parts : List (Except ε α)) :
    (∃ as : List α, parts = as.map .ok)
      ∨ ∃ (as : List α) (err : ε) (rest : List (Except ε α)),
        parts = as.map .ok ++ .error err :: rest := by
  induction parts with
  | nil => exact .inl ⟨[], rfl⟩
  | cons part parts ih =>
      cases part with
      | error err => exact .inr ⟨[], err, parts, rfl⟩
      | ok a =>
          rcases ih with ⟨as, rfl⟩ | ⟨as, err, rest, rfl⟩
          · exact .inl ⟨a :: as, rfl⟩
          · exact .inr ⟨a :: as, err, rest, rfl⟩

variable {mk : RevsetExpression → RevsetExpression → RevsetExpression}
  {first : RevsetExpression} {rest : List RevsetExpression} {err : ParseError}
  {others : List Built}

theorem foldlM_map_ok (parts : List Built) :
    (rest.map Except.ok ++ parts).foldlM
        (fun acc next => do let next ← next; pure (mk acc next)) first
      = parts.foldlM (fun acc next => do let next ← next; pure (mk acc next))
        (rest.foldl mk first) := by
  induction rest generalizing first with
  | nil => rfl
  | cons a as ih => exact ih

theorem buildChain_ok : buildChain mk (.ok first, rest.map .ok) = .ok (rest.foldl mk first) := by
  have h := @foldlM_map_ok mk first rest []
  rw [List.append_nil] at h
  exact h

theorem buildChain_error :
    buildChain mk (.ok first, rest.map .ok ++ .error err :: others) = .error err := by
  exact foldlM_map_ok (.error err :: others)

theorem mapM_map_ok (parts : List Built) :
    (rest.map Except.ok ++ parts).mapM id = (parts.mapM id).map (rest ++ ·) := by
  induction rest with
  | nil => cases h : parts.mapM id <;> simp [h, Except.map]
  | cons a as ih =>
      rw [List.map_cons, List.cons_append, List.mapM_cons, ih]
      cases parts.mapM id <;> rfl

/-! ## Literals -/

theorem unescapeStringLiteral_quotes (body : List Char) :
    unescapeStringLiteral ('"' :: body ++ ['"']) = unescapeChars body := by
  rw [unescapeStringLiteral, if_neg]
  · simp
  · rw [List.getLast?_concat]
    simp

/-- The inside of a literal spells a value, unless a backslash in it escapes nothing. -/
theorem literalBody_eq_some {s body rest : List Char} (h : literalBody s = some (body, rest)) :
    s = body ++ '"' :: rest
      ∧ ((∃ value : List Char, body = value.flatMap escape ∧ unescapeChars body = .ok value)
        ∨ ∃ c, unescapeChars body = .error (.unsupportedEscape c)) := by
  fun_induction literalBody s generalizing body rest with
  | case1 => cases h
  | case2 cs ih =>
      obtain ⟨⟨body', rest'⟩, hread, heq⟩ := Option.map_eq_some_iff.mp h
      cases heq
      obtain ⟨rfl, ⟨value, hbody, hok⟩ | ⟨c, herr⟩⟩ := ih hread
      · exact ⟨rfl, .inl ⟨'\\' :: value, by simp [escape, ← hbody],
          by rw [unescapeChars, hok]; rfl⟩⟩
      · exact ⟨rfl, .inr ⟨c, by rw [unescapeChars, herr]; rfl⟩⟩
  | case3 cs ih =>
      obtain ⟨⟨body', rest'⟩, hread, heq⟩ := Option.map_eq_some_iff.mp h
      cases heq
      obtain ⟨rfl, ⟨value, hbody, hok⟩ | ⟨c, herr⟩⟩ := ih hread
      · exact ⟨rfl, .inl ⟨'"' :: value, by simp [escape, ← hbody],
          by rw [unescapeChars, hok]; rfl⟩⟩
      · exact ⟨rfl, .inr ⟨c, by rw [unescapeChars, herr]; rfl⟩⟩
  | case4 cs =>
      cases h
      exact ⟨rfl, .inl ⟨[], rfl, rfl⟩⟩
  | case5 c cs hslash hquote hend ih =>
      obtain ⟨⟨body', rest'⟩, hread, heq⟩ := Option.map_eq_some_iff.mp h
      cases heq
      obtain ⟨rfl, hbody'⟩ := ih hread
      refine ⟨rfl, ?_⟩
      by_cases hc : c = '\\'
      · subst hc
        cases body' with
        | nil => exact absurd rfl (hquote _ rfl)
        | cons d body' =>
            have hd : d ≠ '\\' := fun hd => hslash _ rfl (by rw [hd]; rfl)
            have hd' : d ≠ '"' := fun hd => hquote _ rfl (by rw [hd]; rfl)
            exact .inr ⟨d, by rw [unescapeChars] <;> simp_all⟩
      · have hescape : escape c = [c] := if_neg (not_or.mpr ⟨hc, hend⟩)
        have hstep : unescapeChars (c :: body') = (unescapeChars body').map (c :: ·) := by
          rw [unescapeChars] <;> simp [hc]
        rw [hstep]
        rcases hbody' with ⟨value, hbody, hok⟩ | ⟨d, herr⟩
        · exact .inl ⟨c :: value, by simp [hescape, ← hbody], by rw [hok]; rfl⟩
        · exact .inr ⟨d, by rw [herr]; rfl⟩

theorem literalBody_escaped (value rest : List Char) :
    literalBody (value.flatMap escape ++ '"' :: rest) = some (value.flatMap escape, rest)
      ∧ unescapeChars (value.flatMap escape) = .ok value := by
  induction value with
  | nil => exact ⟨rfl, rfl⟩
  | cons c value ih =>
      by_cases hc : c = '\\' ∨ c = '"'
      · have hescape : escape c = ['\\', c] := if_pos hc
        rw [List.flatMap_cons, hescape]
        rcases hc with rfl | rfl
        · exact ⟨by simp [literalBody, ih.1], by simp [unescapeChars, ih.2, Except.map]⟩
        · exact ⟨by simp [literalBody, ih.1], by simp [unescapeChars, ih.2, Except.map]⟩
      · have hescape : escape c = [c] := if_neg hc
        obtain ⟨hslash, hquote⟩ := not_or.mp hc
        rw [List.flatMap_cons, hescape]
        constructor
        · rw [List.append_assoc, List.singleton_append, literalBody, ih.1] <;> simp [hslash, hquote]
        · rw [List.singleton_append, unescapeChars, ih.2] <;> simp [hslash, Except.map]

/-! ## What is read is a spelling -/

variable {P Q : RevsetExpression → List Char → Prop} {p expr : Parser Char Built} {op : Char}

/-- The text spells the result, or the result is the one error that recognised text can give. -/
def Okay (P : RevsetExpression → List Char → Prop) : Built → List Char → Prop
  | .ok e, cs => P e cs
  | .error err, _ => ∃ c, err = .unsupportedEscape c

theorem sound_chain (h : Sound blank p (Okay P)) :
    Sound blank (map (buildChain mk) (sepBy blank op p)) (Okay (ChainText P op mk)) := by
  refine h.sepBy.map fun ⟨part, parts⟩ cs hsep => ?_
  cases part with
  | error err =>
      obtain ⟨_, herr⟩ := hsep.exists_text List.mem_cons_self
      exact herr
  | ok first =>
      rcases exists_ok_or_error parts with ⟨as, rfl⟩ | ⟨as, err, rest, rfl⟩
      · rw [buildChain_ok]
        exact ⟨first, as, hsep.of_map, rfl⟩
      · rw [buildChain_error]
        obtain ⟨_, herr⟩ : ∃ cs, Okay P (.error err) cs := hsep.exists_text (by simp)
        exact herr

theorem sound_literal :
    Sound blank (map buildLiteral stringLiteral) (Okay (PrimaryText P)) := by
  intro s built rest hread
  obtain ⟨⟨raw, rest'⟩, hraw, heq⟩ := Option.map_eq_some_iff.mp hread
  cases heq
  rw [stringLiteral.eq_def] at hraw
  split at hraw
  · obtain ⟨⟨body, rest''⟩, hbody, heq⟩ := Option.map_eq_some_iff.mp hraw
    cases heq
    obtain ⟨rfl, ⟨value, hvalue, hok⟩ | ⟨c, herr⟩⟩ := literalBody_eq_some hbody
    · refine ⟨quoted value, [], ?_, .nil, by simp [quoted, hvalue]⟩
      dsimp only
      rw [buildLiteral, unescapeStringLiteral_quotes, hok]
      exact .literal value
    · refine ⟨'"' :: body ++ ['"'], [], ?_, .nil, by simp⟩
      dsimp only
      rw [buildLiteral, unescapeStringLiteral_quotes, herr]
      exact ⟨c, rfl⟩
  · cases hraw

theorem sound_symbol : Sound blank (map buildSymbol symbol) (Okay (PrimaryText P)) := by
  intro s built rest hread
  obtain ⟨⟨name, rest'⟩, hname, heq⟩ := Option.map_eq_some_iff.mp hread
  cases heq
  obtain ⟨hne, hall, rfl⟩ := plus_eq_some hname
  exact ⟨name, [], .symbol ⟨hne, hall⟩, .nil, rfl⟩

theorem seq_eq_some {α β : Type} {q : Parser Char α} {r : Parser Char β} {s rest : List Char}
    {ab : α × β} (h : seq blank q r s = some (ab, rest)) :
    ∃ rest₁, q s = some (ab.1, rest₁) ∧ r (skip blank rest₁) = some (ab.2, rest) := by
  simp only [seq, Option.bind_eq_bind, Option.bind_eq_some_iff] at h
  obtain ⟨⟨a, rest₁⟩, hq, ⟨b, rest₂⟩, hr, heq⟩ := h
  cases heq
  exact ⟨rest₁, hq, hr⟩

theorem sound_group (h : Sound blank expr (Okay P)) :
    Sound blank (group expr) (Okay (PrimaryText P)) := by
  intro s result rest hread
  obtain ⟨⟨⟨u, built, v⟩, rest'⟩, hseq, heq⟩ := Option.map_eq_some_iff.mp hread
  cases heq
  obtain ⟨s₁, hopen, hseq⟩ := seq_eq_some hseq
  obtain ⟨s₂, hexpr, hclose⟩ := seq_eq_some hseq
  obtain ⟨cs, sp, hcs, hsp, hs₁⟩ := h _ _ _ hexpr
  obtain ⟨sp₁, hsp₁, hskip₁⟩ := exists_blank blank s₁
  obtain ⟨sp₂, hsp₂, hskip₂⟩ := exists_blank blank s₂
  have hs : s = '(' :: (sp₁ ++ (cs ++ ((sp ++ sp₂) ++ [')']))) ++ rest' := by
    rw [tok_eq_some hopen, hskip₁, hs₁, hskip₂, tok_eq_some hclose]
    simp
  refine ⟨_, [], ?_, .nil, hs⟩
  cases built with
  | error err => exact hcs
  | ok e => exact PrimaryText.group hsp₁ (hsp.append hsp₂) hcs

/-- What a call makes of its arguments. -/
theorem sound_args (h : Sound blank expr (Okay P)) {s rest : List Char}
    {args : Option (Built × List Built)}
    (hread : opt (sepBy blank ',' expr) s = some (args, rest)) :
    ∃ cs sp, Blank blank sp ∧ s = cs ++ (sp ++ rest)
      ∧ ((∃ es, ArgsText P es cs ∧ buildArgs args = .ok es)
        ∨ ∃ c, buildArgs args = .error (.unsupportedEscape c)) := by
  rw [opt] at hread
  split at hread
  · cases hread
    exact ⟨[], [], .nil, rfl, .inl ⟨[], .none, rfl⟩⟩
  · rename_i parts rest' hparts
    cases hread
    obtain ⟨part, parts⟩ := parts
    obtain ⟨cs, sp, hsep, hsp, hs⟩ := h.sepBy _ _ _ hparts
    refine ⟨cs, sp, hsp, hs, ?_⟩
    rcases exists_ok_or_error (part :: parts) with ⟨es, hes⟩ | ⟨es, err, others, herr⟩
    · obtain ⟨e, es, rfl, rfl, rfl⟩ := List.map_eq_cons_iff.mp hes.symm
      have hall := @mapM_map_ok (e :: es) []
      rw [List.append_nil] at hall
      exact .inl ⟨e :: es, .some hsep.of_map, hall.trans (by simp [pure, Except.pure, Except.map])⟩
    · obtain ⟨_, c, rfl⟩ : ∃ cs, Okay P (.error err) cs := hsep.exists_text (by rw [herr]; simp)
      have hall := @mapM_map_ok es (.error (.unsupportedEscape c) :: others)
      rw [← herr] at hall
      exact .inr ⟨c, hall⟩

theorem sound_functionCall (h : Sound blank expr (Okay P)) :
    Sound blank (functionCall expr) (Okay (PrimaryText P)) := by
  intro s built rest hread
  obtain ⟨⟨⟨name, u, args, v⟩, rest'⟩, hseq, heq⟩ := Option.map_eq_some_iff.mp hread
  cases heq
  obtain ⟨s₁, hname, hseq⟩ := seq_eq_some hseq
  obtain ⟨s₂, hopen, hseq⟩ := seq_eq_some hseq
  obtain ⟨s₃, hargs, hclose⟩ := seq_eq_some hseq
  obtain ⟨hne, hall, hs⟩ := plus_eq_some hname
  obtain ⟨cs, sp, hsp, hs₂, hbuilt⟩ := sound_args h hargs
  obtain ⟨sp₁, hsp₁, hskip₁⟩ := exists_blank blank s₁
  obtain ⟨sp₂, hsp₂, hskip₂⟩ := exists_blank blank s₂
  obtain ⟨sp₃, hsp₃, hskip₃⟩ := exists_blank blank s₃
  have htext : s = (name ++ (sp₁ ++ '(' :: (sp₂ ++ (cs ++ ((sp ++ sp₃) ++ [')'])))))
      ++ rest' := by
    rw [hs, hskip₁, tok_eq_some hopen, hskip₂, hs₂, hskip₃, tok_eq_some hclose]
    simp
  refine ⟨_, [], ?_, .nil, htext⟩
  rcases hbuilt with ⟨es, hes, hbuilt⟩ | ⟨c, hbuilt⟩
  · dsimp only
    rw [buildFunction, hbuilt]
    exact .function ⟨hne, hall⟩ hsp₁ hsp₂ (hsp.append hsp₃) hes
  · dsimp only
    rw [buildFunction, hbuilt]
    exact ⟨c, rfl⟩

theorem sound_union (h : Sound blank expr (Okay P)) :
    Sound blank (union expr) (Okay (UnionText P)) :=
  sound_chain (sound_chain ((sound_functionCall h).alt (sound_literal.alt
    (sound_symbol.alt (sound_group h)))))

theorem sound_expression (depth : ℕ) : Sound blank (expression depth) (Okay (Spells depth)) := by
  induction depth with
  | zero => exact fun s built rest hread => nomatch hread
  | succ depth ih => exact sound_union ih

/-! ## Every spelling is read -/

def Done (P : RevsetExpression → List Char → Prop) (built : Built) (cs : List Char) : Prop :=
  ∃ e, built = .ok e ∧ P e cs

/-- Texts that start with something other than a blank. -/
def Starts (P : RevsetExpression → List Char → Prop) : Prop :=
  ∀ e cs, P e cs → ∃ c t, cs = c :: t ∧ blank c = false

def endsPrimary (c : Char) : Prop := c ∈ ['&', '|', ')', ',']

def endsIntersection (c : Char) : Prop := c ∈ ['|', ')', ',']

def endsUnion (c : Char) : Prop := c ∈ [')', ',']

theorem not_blank_of_symbolChar {c : Char} (h : symbolChar c = true) : blank c = false := by
  rw [blank, decide_eq_false_iff_not]
  rintro rfl
  revert h
  decide

theorem IsSymbol.starts {name : List Char} (h : IsSymbol name) :
    ∃ c t, name = c :: t ∧ symbolChar c = true := by
  cases name with
  | nil => exact absurd rfl h.1
  | cons c t => exact ⟨c, t, rfl, h.2 c List.mem_cons_self⟩

theorem starts_primary : Starts (PrimaryText P) := by
  intro e cs h
  cases h with
  | symbol hname =>
      obtain ⟨c, t, rfl, hc⟩ := hname.starts
      exact ⟨c, t, rfl, not_blank_of_symbolChar hc⟩
  | literal value => exact ⟨_, _, rfl, rfl⟩
  | group hsp hsp' hP => exact ⟨_, _, rfl, rfl⟩
  | function hname hsp hsp' hsp'' hargs =>
      obtain ⟨c, t, rfl, hc⟩ := hname.starts
      exact ⟨c, _, rfl, not_blank_of_symbolChar hc⟩

theorem starts_separated (h : Starts P) {cs : List Char}
    (hsep : Separated blank op P (first, rest) cs) : ∃ c t, cs = c :: t ∧ blank c = false := by
  obtain ⟨cs, ds, hP, htail, rfl⟩ := hsep
  obtain ⟨c, t, rfl, hc⟩ := h first cs hP
  exact ⟨c, t ++ ds, rfl, hc⟩

theorem Starts.chain (h : Starts P) : Starts (ChainText P op mk) := by
  rintro e cs ⟨first, as, hsep, rfl⟩
  exact starts_separated h hsep

theorem Starts.skip_append (h : Starts P) {built : Built} {cs : List Char}
    (hdone : Done P built cs) (s : List Char) : skip blank (cs ++ s) = cs ++ s := by
  obtain ⟨e, rfl, hP⟩ := hdone
  obtain ⟨c, t, rfl, hc⟩ := h e cs hP
  exact skip_cons_of_not hc (t ++ s)

theorem starts_spells (depth : ℕ) : Starts (Spells depth) := by
  cases depth with
  | zero => exact fun e cs h => h.elim
  | succ depth => exact starts_primary.chain.chain

theorem complete_chain {inner outer : Char → Prop} (h : Complete blank p (Done P) inner)
    (hstarts : Starts P) (hsep : Separates blank op inner outer) :
    Complete blank (map (buildChain mk) (sepBy blank op p)) (Done (ChainText P op mk)) outer := by
  rintro built cs rest ⟨e, rfl, first, as, htext, rfl⟩ hrest
  have hdone : Separated blank op (Done P) (.ok first, as.map .ok) cs :=
    htext.map Except.ok fun a c hP _ => ⟨a, rfl, hP⟩
  obtain ⟨rest', hread, hskip⟩ :=
    h.sepBy (fun _ _ hP s => hstarts.skip_append hP s) hsep _ _ _ hdone hrest
  exact ⟨rest', by rw [map, hread, Option.map_some, buildChain_ok], hskip⟩

theorem not_symbol_of_follows {rest : List Char} (h : Follows blank endsPrimary rest) :
    ∀ c ∈ rest.head?, symbolChar c = false := by
  intro c hc
  obtain ⟨t, rfl⟩ : ∃ t, rest = c :: t := List.head?_eq_some_iff.mp hc
  rcases h.head with hblank | hends
  · cases hsymbol : symbolChar c with
    | false => rfl
    | true => rw [not_blank_of_symbolChar hsymbol] at hblank; cases hblank
  · simp only [endsPrimary, List.mem_cons, List.not_mem_nil, or_false] at hends
    rcases hends with rfl | rfl | rfl | rfl <;> decide

theorem symbol_cons_of_not {c : Char} (hc : symbolChar c = false) (s : List Char) :
    symbol (c :: s) = none := by
  rw [symbol, plus, if_pos (by simp [hc])]

theorem functionCall_cons_of_not {c : Char} (hc : symbolChar c = false) (s : List Char) :
    functionCall expr (c :: s) = none := by
  rw [functionCall, map, seq, symbol_cons_of_not hc]
  rfl

theorem primary_close (s : List Char) : primary expr (')' :: s) = none := by
  rw [primary, alt, functionCall_cons_of_not (by decide), alt, alt, map, map,
    symbol_cons_of_not (by decide)]
  rfl

theorem expression_close (depth : ℕ) (s : List Char) : expression depth (')' :: s) = none := by
  cases depth with
  | zero => rfl
  | succ depth =>
      rw [expression, union, map, sepBy, seq, intersection, map, sepBy, seq, primary_close]
      rfl

theorem functionCall_symbol {name rest : List Char} (h : IsSymbol name)
    (hrest : Follows blank endsPrimary rest) : functionCall expr (name ++ rest) = none := by
  have hopen : (skip blank rest).head? ≠ some '(' := by
    intro hopen
    have hends := hrest '(' hopen
    simp [endsPrimary] at hends
  rw [functionCall, map, seq, symbol, plus_append h.1 h.2 (not_symbol_of_follows hrest)]
  simp [seq, tok_eq_none hopen]

theorem stringLiteral_symbol {name : List Char} (h : IsSymbol name) (rest : List Char) :
    stringLiteral (name ++ rest) = none := by
  obtain ⟨c, t, rfl, hc⟩ := h.starts
  rw [stringLiteral.eq_def]
  split
  · rename_i heq
    cases heq
    exact absurd hc (by decide)
  · rfl

theorem symbol_followed {name rest : List Char} (h : IsSymbol name) {c : Char}
    (hc : symbolChar c = false) {sp : List Char} (hsp : Blank blank sp) :
    symbol (name ++ (sp ++ c :: rest)) = some (name, sp ++ c :: rest) := by
  refine plus_append h.1 h.2 fun d hd => ?_
  cases sp with
  | nil =>
      obtain rfl : c = d := by simpa using hd
      exact hc
  | cons b sp =>
      obtain rfl : b = d := by simpa using hd
      cases hb : symbolChar b with
      | false => rfl
      | true =>
          have hblank := hsp b List.mem_cons_self
          rw [not_blank_of_symbolChar hb] at hblank
          cases hblank

theorem skip_close {sp : List Char} (hsp : Blank blank sp) (rest : List Char) :
    skip blank (sp ++ [')'] ++ rest) = ')' :: rest := by
  rw [List.append_assoc, skip_blank_append hsp]
  rfl

theorem close_follows {sp rest : List Char} (stops : Char → Prop) (hsp : Blank blank sp)
    (hstop : stops ')') : Follows blank stops (sp ++ [')'] ++ rest) := by
  intro c hc
  rw [skip_close hsp] at hc
  obtain rfl : ')' = c := by simpa using hc
  exact hstop

/-- The arguments of a call before its closing parenthesis. -/
theorem complete_args (rest : List Char) (h : Complete blank expr (Done P) endsUnion)
    (hstarts : Starts P)
    (hclose : ∀ s, expr (')' :: s) = none) {args : List RevsetExpression}
    {sp cs : List Char} (hsp : Blank blank sp) (hargs : ArgsText P args cs) :
    ∃ parts rest', opt (sepBy blank ',' expr) (skip blank (cs ++ (sp ++ [')'] ++ rest)))
        = some (parts, rest')
      ∧ buildArgs parts = .ok args ∧ skip blank rest' = ')' :: rest := by
  cases hargs with
  | none =>
      refine ⟨none, ')' :: rest, ?_, rfl, rfl⟩
      have hnone : sepBy blank ',' expr (')' :: rest) = none := by
        rw [sepBy, seq, hclose]
        rfl
      rw [List.nil_append, skip_close hsp, opt, hnone]
  | @some arg args cs htext =>
      have hdone : Separated blank ',' (Done P) (.ok arg, args.map .ok) cs :=
        htext.map Except.ok fun a c hP _ => ⟨a, rfl, hP⟩
      have hsep : Separates blank ',' endsUnion (· = ')') :=
        ⟨rfl, by simp [endsUnion], by rintro c rfl; simp [endsUnion], by decide⟩
      obtain ⟨rest', hread, hskip⟩ := h.sepBy (fun _ _ hP s => hstarts.skip_append hP s) hsep
        _ _ _ hdone (close_follows (· = ')') hsp rfl)
      have hcs : ∀ s, skip blank (cs ++ s) = cs ++ s := by
        intro s
        obtain ⟨c, t, rfl, hc⟩ := starts_separated hstarts htext
        exact skip_cons_of_not hc (t ++ s)
      refine ⟨some (.ok arg, args.map .ok), rest', ?_, ?_, hskip.trans (skip_close hsp rest)⟩
      · rw [hcs, opt, hread]
      · have hall := @mapM_map_ok (arg :: args) []
        rw [List.append_nil] at hall
        exact hall.trans (by simp [pure, Except.pure, Except.map])

theorem complete_primary (h : Complete blank expr (Done P) endsUnion) (hstarts : Starts P)
    (hclose : ∀ s, expr (')' :: s) = none) :
    Complete blank (primary expr) (Done (PrimaryText P)) endsPrimary := by
  rintro built text rest ⟨e, rfl, htext⟩ hrest
  cases htext with
  | symbol hname =>
      refine ⟨rest, ?_, rfl⟩
      rw [primary, alt, functionCall_symbol hname hrest, alt, alt, map, map,
        stringLiteral_symbol hname, symbol,
        plus_append hname.1 hname.2 (not_symbol_of_follows hrest)]
      rfl
  | literal value =>
      refine ⟨rest, ?_, rfl⟩
      obtain ⟨hread, hbuilt⟩ := literalBody_escaped value rest
      have hliteral : stringLiteral (quoted value ++ rest)
          = some ('"' :: value.flatMap escape ++ ['"'], rest) := by
        rw [quoted, List.cons_append, List.append_assoc, List.singleton_append, stringLiteral,
          hread]
        rfl
      rw [primary, alt, alt, map, hliteral, quoted, List.cons_append,
        functionCall_cons_of_not (by decide)]
      simp only [Option.none_or, Option.map_some, Option.some_or]
      rw [buildLiteral, unescapeStringLiteral_quotes, hbuilt]
      rfl
  | @group e sp sp' cs hsp hsp' hP =>
      obtain ⟨rest', hread, hskip⟩ := h _ cs (sp' ++ [')'] ++ rest) ⟨e, rfl, hP⟩
        (close_follows endsUnion hsp' (by simp [endsUnion]))
      have htok : tok ')' (skip blank rest') = some ((), rest) := by
        rw [hskip, skip_close hsp', tok_self]
      refine ⟨rest, ?_, rfl⟩
      have hgroup : group expr ('(' :: (sp ++ (cs ++ (sp' ++ [')']))) ++ rest)
          = some (.ok e, rest) := by
        rw [group, map, seq, List.cons_append, tok_self]
        simp only [Option.bind_eq_bind, Option.bind_some, List.append_assoc]
        rw [skip_blank_append hsp, hstarts.skip_append ⟨e, rfl, hP⟩, seq, ← List.append_assoc sp',
          hread]
        simp [htok]
      rw [primary, alt, alt, alt, hgroup, map, map, List.cons_append,
        functionCall_cons_of_not (by decide), symbol_cons_of_not (by decide)]
      rfl
  | @function name sp sp' sp'' cs args hname hsp hsp' hsp'' hargs =>
      obtain ⟨parts, rest', hread, hbuilt, hskip⟩ :=
        complete_args rest h hstarts hclose hsp'' hargs
      have htok : tok ')' (skip blank rest') = some ((), rest) := by rw [hskip, tok_self]
      refine ⟨rest, ?_, rfl⟩
      have hcall : functionCall expr
          (name ++ (sp ++ '(' :: (sp' ++ (cs ++ (sp'' ++ [')'])))) ++ rest)
          = some (.ok (.function (.ofList name) args), rest) := by
        rw [functionCall, map, seq, List.append_assoc, List.append_assoc, List.cons_append,
          symbol_followed hname (by decide) hsp]
        simp only [Option.bind_eq_bind, Option.bind_some]
        rw [skip_blank_append hsp, skip_cons_of_not (by decide), seq, tok_self]
        simp only [Option.bind_eq_bind, Option.bind_some, List.append_assoc]
        rw [skip_blank_append hsp', seq, ← List.append_assoc sp'', hread]
        simp [htok, buildFunction, hbuilt, Except.map]
      rw [primary, alt, hcall]
      rfl

theorem complete_union (h : Complete blank expr (Done P) endsUnion) (hstarts : Starts P)
    (hclose : ∀ s, expr (')' :: s) = none) :
    Complete blank (union expr) (Done (UnionText P)) endsUnion := by
  have hinner : Separates blank '&' endsPrimary endsIntersection :=
    ⟨rfl, by simp [endsPrimary], by simp [endsPrimary, endsIntersection],
      by simp [endsIntersection]⟩
  have houter : Separates blank '|' endsIntersection endsUnion :=
    ⟨rfl, by simp [endsIntersection], by simp [endsIntersection, endsUnion], by simp [endsUnion]⟩
  exact complete_chain (complete_chain (complete_primary h hstarts hclose) starts_primary hinner)
    starts_primary.chain houter

theorem complete_expression (depth : ℕ) :
    Complete blank (expression depth) (Done (Spells depth)) endsUnion := by
  induction depth with
  | zero => exact fun built cs rest ⟨e, _, h⟩ => h.elim
  | succ depth ih => exact complete_union ih (starts_spells depth) (expression_close depth)

/-! ## Depth -/

theorem PrimaryText.mono {e : RevsetExpression} {cs : List Char} (h : PrimaryText P e cs)
    (hPQ : ∀ e' cs', P e' cs' → cs'.length < cs.length → Q e' cs') : PrimaryText Q e cs := by
  cases h with
  | symbol hname => exact .symbol hname
  | literal value => exact .literal value
  | group hsp hsp' hP => exact .group hsp hsp' (hPQ _ _ hP (by simp; omega))
  | function hname hsp hsp' hsp'' hargs =>
      refine .function hname hsp hsp' hsp'' ?_
      cases hargs with
      | none => exact .none
      | some htext =>
          refine .some ?_
          exact htext.mono fun a c hP hle => hPQ a c hP (by simp; omega)

theorem ChainText.mono {e : RevsetExpression} {cs : List Char} (h : ChainText P op mk e cs)
    (hPQ : ∀ e' cs', P e' cs' → cs'.length ≤ cs.length → Q e' cs') : ChainText Q op mk e cs := by
  obtain ⟨first, as, htext, rfl⟩ := h
  exact ⟨first, as, htext.mono hPQ, rfl⟩

/-- Parentheses are nested no deeper than the text is long. -/
theorem spells_of_length {depth bound : ℕ} {e : RevsetExpression} {cs : List Char}
    (h : Spells depth e cs) (hle : cs.length ≤ bound) : Spells bound e cs := by
  induction bound generalizing depth e cs with
  | zero =>
      obtain ⟨c, t, rfl, -⟩ := starts_spells depth e cs h
      simp at hle
  | succ bound ih =>
      cases depth with
      | zero => exact h.elim
      | succ depth =>
          refine ChainText.mono h fun e' cs' h' hle' => h'.mono fun e'' cs'' h'' hle'' => ?_
          exact h''.mono fun e₃ cs₃ h₃ hlt => ih h₃ (by omega)

theorem query_eq_some {input : List Char} {built : Built} (h : query input = some built) :
    ∃ sp cs sp', Blank blank sp ∧ Blank blank sp' ∧ Okay (Spells (input.length + 1)) built cs
      ∧ input = sp ++ (cs ++ sp') := by
  rw [query] at h
  split at h
  · cases h
  · rename_i result rest hread
    split_ifs at h with hend
    cases h
    obtain ⟨sp, hsp, hinput⟩ := exists_blank blank input
    obtain ⟨cs, sp', hcs, hsp', hskip⟩ := sound_expression _ _ _ _ hread
    obtain ⟨sp'', hsp'', hrest⟩ := exists_blank blank rest
    rw [hend, List.append_nil] at hrest
    refine ⟨sp, cs, sp' ++ sp'', hsp, hsp'.append hsp'', hcs, ?_⟩
    rw [← hrest, ← hskip]
    exact hinput

theorem query_of_spells {depth : ℕ} {sp cs sp' : List Char} {e : RevsetExpression}
    (hsp : Blank blank sp) (hsp' : Blank blank sp') (h : Spells depth e cs) :
    query (sp ++ (cs ++ sp')) = some (.ok e) := by
  have hspells : Spells ((sp ++ (cs ++ sp')).length + 1) e cs :=
    spells_of_length h (by simp only [List.length_append]; omega)
  have hend : skip blank sp' = skip blank [] := by simpa using skip_blank_append hsp' []
  obtain ⟨rest, hread, hskip⟩ := complete_expression _ _ cs sp' ⟨e, rfl, hspells⟩
    (follows_nil.of_skip hend.symm)
  rw [query, skip_blank_append hsp, (starts_spells _).skip_append ⟨e, rfl, hspells⟩, hread]
  exact if_pos (hskip.trans hend)

/-- **The parser accepts exactly the spellings of expressions**, each with the one expression
that it spells, and text that it recognises fails on an unsupported escape only. -/
theorem parse_exact (input : String) :
    (∀ e, parse input = .ok e ↔ Reads input e)
      ∧ ∀ err, parse input = .error err →
        err = .unexpected ∨ ∃ c, err = .unsupportedEscape c := by
  constructor
  · intro e
    rw [parse]
    constructor
    · intro h
      split at h
      · cases h
      · rename_i built hquery
        subst h
        obtain ⟨sp, cs, sp', hsp, hsp', hcs, hinput⟩ := query_eq_some hquery
        exact ⟨_, sp, cs, sp', hsp, hsp', hcs, hinput⟩
    · rintro ⟨depth, sp, cs, sp', hsp, hsp', hcs, hinput⟩
      rw [hinput, query_of_spells hsp hsp' hcs]
  · intro err h
    rw [parse] at h
    split at h
    · exact .inl (Except.error.inj h).symm
    · rename_i built hquery
      subst h
      obtain ⟨sp, cs, sp', -, -, hcs, -⟩ := query_eq_some hquery
      exact .inr hcs

end RevsetText

end ArcVcs
