import ArcVcs.PolicyFiles

/-!
# Loading policy files with what they include

The include state has the files that were entered and the stack of those that are being loaded. A
file on the stack is a cycle, and a file that was entered before is skipped.
-/

namespace ArcVcs

/-- The stack has the innermost file last. The loaders have the limit 32, so the depths fit in 16
bits. -/
structure IncludeState (maxDepth : ℕ) where
  visited : Finset PathBuf
  stack : List PathBuf

variable {Gitignore : Type} {ρ τ : Type} {maxDepth : ℕ} (env : PolicyEnv Gitignore)

namespace IncludeState

def new (maxDepth : ℕ) : IncludeState maxDepth := ⟨∅, []⟩

def enter (state : IncludeState maxDepth) (filePath : PathBuf) (depth : ℕ) :
    Except PolicyStoreError (Option PathBuf) × IncludeState maxDepth :=
  match env.canonicalize filePath with
  | .error source => (.error (.read filePath source), state)
  | .ok canonical =>
      if maxDepth < depth then (.error (.maxDepth canonical), state)
      else
        match state.stack.findIdx? (· = canonical) with
        | some idx =>
            let cycle := (state.stack.drop idx).map PathBuf.display ++ [canonical.display]
            (.error (.includeCycle (" -> ".intercalate cycle)), state)
        | none =>
            if canonical ∈ state.visited then (.ok none, state)
            else
              (.ok (some canonical), ⟨insert canonical state.visited, state.stack ++ [canonical]⟩)

def exit (state : IncludeState maxDepth) : IncludeState maxDepth :=
  { state with stack := state.stack.dropLast }

/-- What `enter` does. -/
inductive Entered (state : IncludeState maxDepth) (filePath : PathBuf) (depth : ℕ) :
    Except PolicyStoreError (Option PathBuf) × IncludeState maxDepth → Prop
  | unreadable {source : String} (h : env.canonicalize filePath = .error source) :
      Entered state filePath depth (.error (.read filePath source), state)
  | tooDeep {canonical : PathBuf} (h : env.canonicalize filePath = .ok canonical)
      (hdepth : maxDepth < depth) :
      Entered state filePath depth (.error (.maxDepth canonical), state)
  | onStack {canonical : PathBuf} (h : env.canonicalize filePath = .ok canonical)
      (hdepth : depth ≤ maxDepth) (hstack : canonical ∈ state.stack) (cycle : String) :
      Entered state filePath depth (.error (.includeCycle cycle), state)
  | again {canonical : PathBuf} (h : env.canonicalize filePath = .ok canonical)
      (hdepth : depth ≤ maxDepth) (hstack : canonical ∉ state.stack)
      (hvisited : canonical ∈ state.visited) : Entered state filePath depth (.ok none, state)
  | first {canonical : PathBuf} (h : env.canonicalize filePath = .ok canonical)
      (hdepth : depth ≤ maxDepth) (hstack : canonical ∉ state.stack)
      (hvisited : canonical ∉ state.visited) :
      Entered state filePath depth
        (.ok (some canonical), ⟨insert canonical state.visited, state.stack ++ [canonical]⟩)

variable {env} {state : IncludeState maxDepth} {filePath : PathBuf} {depth : ℕ}

variable (env) in
theorem entered (state : IncludeState maxDepth) (filePath : PathBuf) (depth : ℕ) :
    Entered env state filePath depth (state.enter env filePath depth) := by
  rw [enter]
  split
  · exact .unreadable ‹_›
  · rename_i canonical hcanonical
    by_cases hdepth : maxDepth < depth
    · rw [if_pos hdepth]
      exact .tooDeep hcanonical hdepth
    rw [if_neg hdepth]
    have hdepth := not_lt.mp hdepth
    split
    · rename_i idx hidx
      obtain ⟨hlt, hfound, -⟩ := List.findIdx?_eq_some_iff_getElem.mp hidx
      have hmem : canonical ∈ state.stack := of_decide_eq_true hfound ▸ List.getElem_mem hlt
      exact .onStack hcanonical hdepth hmem _
    · rename_i hidx
      have hstack : canonical ∉ state.stack := fun hmem => by
        simpa using List.findIdx?_eq_none_iff.mp hidx canonical hmem
      split_ifs with hvisited
      · exact .again hcanonical hdepth hstack hvisited
      · exact .first hcanonical hdepth hstack hvisited

theorem depth_le_of_enter {canonical : PathBuf} {next : IncludeState maxDepth}
    (h : state.enter env filePath depth = (.ok (some canonical), next)) : depth ≤ maxDepth := by
  have hentered := entered env state filePath depth
  rw [h] at hentered
  cases hentered with
  | first _ hdepth _ _ => exact hdepth

end IncludeState

namespace PolicyLoader

section Loading

variable (loader : PolicyLoader ρ τ)

/-- The items of a file, with the loading of another file. -/
def loadItems (load : PathBuf → IncludeState maxDepth × τ →
      Except PolicyStoreError Unit × (IncludeState maxDepth × τ))
    (canonical : PathBuf) (depth : ℕ) : List (PolicyItem ρ) → IncludeState maxDepth × τ →
      Except PolicyStoreError Unit × (IncludeState maxDepth × τ)
  | [], s => (.ok (), s)
  | .fail e :: _, s => (.error e, s)
  | .own r :: items, s =>
      loadItems load canonical depth items (s.1, loader.contribute canonical depth r s.2)
  | .nested path :: items, s =>
      match load path s with
      | (.error e, s') => (.error e, s')
      | (.ok _, s') => loadItems load canonical depth items s'

/-- The result of a file, which is returned after `exit`. -/
def loadFile (load : PathBuf → IncludeState maxDepth × τ →
      Except PolicyStoreError Unit × (IncludeState maxDepth × τ))
    (canonical : PathBuf) (depth : ℕ) (s : IncludeState maxDepth × τ) :
    Except PolicyStoreError Unit × (IncludeState maxDepth × τ) :=
  match loader.items canonical with
  | .error e => (.error e, s)
  | .ok items => loader.loadItems load canonical depth items s

def loadRecursive (s : IncludeState maxDepth × τ) (filePath : PathBuf) (depth : ℕ) :
    Except PolicyStoreError Unit × (IncludeState maxDepth × τ) :=
  match h : s.1.enter env filePath depth with
  | (.error e, state) => (.error e, (state, s.2))
  | (.ok none, state) => (.ok (), (state, s.2))
  | (.ok (some canonical), state) =>
      have : maxDepth + 1 - (depth + 1) < maxDepth + 1 - depth := by
        have := IncludeState.depth_le_of_enter h
        omega
      let (result, s') :=
        loader.loadFile (fun path s => loadRecursive s path (depth + 1))
          canonical depth (state, s.2)
      (result, (s'.1.exit, s'.2))
termination_by maxDepth + 1 - depth

end Loading

variable {env} {loader : PolicyLoader ρ τ} {s s' : IncludeState maxDepth × τ}
  {filePath canonical : PathBuf} {depth : ℕ} {e : PolicyStoreError} {items : List (PolicyItem ρ)}
  {load : PathBuf → IncludeState maxDepth × τ →
    Except PolicyStoreError Unit × (IncludeState maxDepth × τ)}

theorem depth_induction (maxDepth : ℕ) {P : ℕ → Prop}
    (h : ∀ d, (d ≤ maxDepth → P (d + 1)) → P d) (d : ℕ) : P d := by
  induction hn : maxDepth + 1 - d generalizing d with
  | zero => exact h d fun hd => by omega
  | succ n ih => exact h d fun hd => ih (d + 1) (by omega)

theorem loadRecursive_of_error {state : IncludeState maxDepth}
    (h : s.1.enter env filePath depth = (.error e, state)) :
    loader.loadRecursive env s filePath depth = (.error e, (state, s.2)) := by
  rw [loadRecursive]
  split <;> rename_i henter <;> cases h.symm.trans henter
  rfl

theorem loadRecursive_of_none {state : IncludeState maxDepth}
    (h : s.1.enter env filePath depth = (.ok none, state)) :
    loader.loadRecursive env s filePath depth = (.ok (), (state, s.2)) := by
  rw [loadRecursive]
  split <;> rename_i henter <;> cases h.symm.trans henter
  rfl

theorem loadRecursive_of_some {state : IncludeState maxDepth}
    (h : s.1.enter env filePath depth = (.ok (some canonical), state)) :
    loader.loadRecursive env s filePath depth
      = Prod.map id (Prod.map IncludeState.exit id)
        (loader.loadFile (fun path s => loader.loadRecursive env s path (depth + 1)) canonical depth
          (state, s.2)) := by
  rw [loadRecursive]
  split <;> rename_i henter <;> cases h.symm.trans henter
  rfl

/-! ## The stack -/

theorem loadItems_stack (hload : ∀ s path, (load path s).2.1.stack = s.1.stack) :
    (loader.loadItems load canonical depth items s).2.1.stack = s.1.stack := by
  induction items generalizing s with
  | nil => rfl
  | cons item items ih =>
      cases item with
      | fail e => rfl
      | own r => exact ih
      | nested path =>
          have hpath := hload s path
          rw [loadItems]
          split
          · rename_i e s' hres
            rw [hres] at hpath
            exact hpath
          · rename_i s' hres
            rw [hres] at hpath
            exact ih.trans hpath

theorem loadFile_stack (hload : ∀ s path, (load path s).2.1.stack = s.1.stack) :
    (loader.loadFile load canonical depth s).2.1.stack = s.1.stack := by
  rw [loadFile]
  split
  · rfl
  · exact loadItems_stack hload

theorem loadRecursive_stack (s : IncludeState maxDepth × τ) (filePath : PathBuf) (depth : ℕ) :
    (loader.loadRecursive env s filePath depth).2.1.stack = s.1.stack := by
  refine depth_induction maxDepth (P := fun depth => ∀ (s : IncludeState maxDepth × τ) filePath,
    (loader.loadRecursive env s filePath depth).2.1.stack = s.1.stack) ?_ depth s filePath
  intro depth ih s filePath
  have hentered := IncludeState.entered env s.1 filePath depth
  generalize henter : s.1.enter env filePath depth = res at hentered
  cases hentered with
  | unreadable _ => rw [loadRecursive_of_error henter]
  | tooDeep _ _ => rw [loadRecursive_of_error henter]
  | onStack _ _ _ cycle => rw [loadRecursive_of_error henter]
  | again _ _ _ _ => rw [loadRecursive_of_none henter]
  | first hcanonical hdepth hstack hvisited =>
      rw [loadRecursive_of_some henter]
      rw [Prod.map_snd, Prod.map_fst, IncludeState.exit, loadFile_stack (ih hdepth)]
      exact List.dropLast_concat

theorem stack_eq_of_loadItems {d : ℕ} {res : Except PolicyStoreError Unit}
    (h : loader.loadItems (fun path s => loader.loadRecursive env s path d) canonical depth items s
      = (res, s')) : s'.1.stack = s.1.stack :=
  (congrArg (fun r => r.2.1.stack) h).symm.trans
    (loadItems_stack fun s path => loadRecursive_stack s path d)

/-! ## The traversal and its errors -/

/-- A call of `enter`. -/
structure EnterCall (maxDepth : ℕ) where
  state : IncludeState maxDepth
  filePath : PathBuf
  depth : ℕ

/-- The calls of `enter` that loading a file makes: its own, and those of an included file that is
loaded after the items before it. -/
inductive Calls (env : PolicyEnv Gitignore) (loader : PolicyLoader ρ τ) :
    IncludeState maxDepth × τ → PathBuf → ℕ → EnterCall maxDepth → Prop
  | self (s : IncludeState maxDepth × τ) (filePath : PathBuf) (depth : ℕ) :
      Calls env loader s filePath depth ⟨s.1, filePath, depth⟩
  | nested {s s' : IncludeState maxDepth × τ} {filePath canonical path : PathBuf} {depth : ℕ}
      {state : IncludeState maxDepth} {before after : List (PolicyItem ρ)}
      {call : EnterCall maxDepth}
      (henter : s.1.enter env filePath depth = (.ok (some canonical), state))
      (hitems : loader.items canonical = .ok (before ++ .nested path :: after))
      (hbefore : loader.loadItems (fun path s => loader.loadRecursive env s path (depth + 1))
        canonical depth before (state, s.2) = (.ok (), s'))
      (hcall : Calls env loader s' path (depth + 1) call) : Calls env loader s filePath depth call

/-- The file is being loaded already. -/
def EnterCall.MeetsStack (env : PolicyEnv Gitignore) (call : EnterCall maxDepth) : Prop :=
  call.depth ≤ maxDepth ∧ ∃ canonical ∈ call.state.stack,
    env.canonicalize call.filePath = .ok canonical

def EnterCall.ExceedsDepth (env : PolicyEnv Gitignore) (call : EnterCall maxDepth) : Prop :=
  maxDepth < call.depth ∧ ∃ canonical, env.canonicalize call.filePath = .ok canonical

theorem EnterCall.meetsStack_iff {call : EnterCall maxDepth} : call.MeetsStack env ↔
    ∃ cycle, (call.state.enter env call.filePath call.depth).1 = .error (.includeCycle cycle) := by
  have hentered := IncludeState.entered env call.state call.filePath call.depth
  generalize call.state.enter env call.filePath call.depth = res at hentered ⊢
  cases hentered with
  | unreadable h => simp [MeetsStack, h]
  | tooDeep h hdepth => simp [MeetsStack, hdepth.not_ge]
  | onStack h hdepth hstack cycle => simp [MeetsStack, h, hdepth, hstack]
  | again h hdepth hstack _ => simp [MeetsStack, h, hstack]
  | first h hdepth hstack _ => simp [MeetsStack, h, hstack]

theorem EnterCall.exceedsDepth_iff {call : EnterCall maxDepth} : call.ExceedsDepth env ↔
    ∃ path, (call.state.enter env call.filePath call.depth).1 = .error (.maxDepth path) := by
  have hentered := IncludeState.entered env call.state call.filePath call.depth
  generalize call.state.enter env call.filePath call.depth = res at hentered ⊢
  cases hentered with
  | unreadable h => simp [ExceedsDepth, h]
  | tooDeep h hdepth => simp [ExceedsDepth, h, hdepth]
  | onStack h hdepth hstack cycle => simp [ExceedsDepth, hdepth.not_gt]
  | again h hdepth hstack _ => simp [ExceedsDepth, hdepth.not_gt]
  | first h hdepth hstack _ => simp [ExceedsDepth, hdepth.not_gt]

/-- The items of a file with canonical includes. -/
def graphItem (env : PolicyEnv Gitignore) : PolicyItem ρ → Option (Inclusion.Item PathBuf ρ)
  | .own r => some (.own r)
  | .nested path =>
      match env.canonicalize path with
      | .error _ => none
      | .ok b => some (.nested b)
  | .fail _ => none

/-- The include graph over canonical paths. -/
def graph (env : PolicyEnv Gitignore) (loader : PolicyLoader ρ τ) (canonical : PathBuf) :
    List (Inclusion.Item PathBuf ρ) :=
  match loader.items canonical with
  | .error _ => []
  | .ok items => items.filterMap (graphItem env)

theorem includes_of_items {path b : PathBuf} (hitems : loader.items canonical = .ok items)
    (hpath : .nested path ∈ items) (hb : env.canonicalize path = .ok b) :
    Inclusion.Includes (graph env loader) canonical b := by
  rw [Inclusion.Includes, graph, hitems]
  refine List.mem_filterMap.mpr ⟨_, hpath, ?_⟩
  rw [graphItem, hb]

/-- Each call is for a file that is included from the start through the files that its stack has on
top, and its depth is how many these are. -/
theorem Calls.includes {call : EnterCall maxDepth} (h : Calls env loader s filePath depth call) :
    call.depth ≤ max depth (maxDepth + 1)
      ∧ ∃ chain, call.state.stack = s.1.stack ++ chain ∧ call.depth = depth + chain.length
        ∧ ∀ c, env.canonicalize call.filePath = .ok c →
          (chain ++ [c]).IsChain (Inclusion.Includes (graph env loader))
            ∧ ∃ b, env.canonicalize filePath = .ok b ∧ (chain ++ [c]).head? = some b := by
  induction h with
  | self s filePath depth =>
      refine ⟨le_max_left .., [], (List.append_nil _).symm, rfl, fun c hc => ?_⟩
      exact ⟨.singleton c, c, hc, rfl⟩
  | @nested s s' filePath canonical path depth state before after call henter hitems hbefore _ ih =>
      obtain ⟨hle, chain, hstack, hlength, hchain⟩ := ih
      have hdepth := IncludeState.depth_le_of_enter henter
      have hentered := IncludeState.entered env s.1 filePath depth
      rw [henter] at hentered
      cases hentered with
      | first hcanonical _ _ _ =>
          have hs' := stack_eq_of_loadItems hbefore
          refine ⟨by omega, canonical :: chain, ?_, by rw [List.length_cons]; omega, fun c hc => ?_⟩
          · rw [hstack, hs', List.append_assoc]
            rfl
          · obtain ⟨hnext, b, hb, hhead⟩ := hchain c hc
            refine ⟨?_, canonical, hcanonical, rfl⟩
            rw [List.cons_append, List.isChain_cons]
            refine ⟨fun y hy => ?_, hnext⟩
            rw [hhead] at hy
            cases hy
            exact includes_of_items hitems (List.mem_append_right _ List.mem_cons_self) hb

theorem loadItems_append {before : List (PolicyItem ρ)}
    (h : loader.loadItems load canonical depth before s = (.ok (), s')) :
    loader.loadItems load canonical depth (before ++ items) s
      = loader.loadItems load canonical depth items s' := by
  induction before generalizing s with
  | nil =>
      cases h
      rfl
  | cons item before ih =>
      cases item with
      | fail e => cases h
      | own r => exact ih h
      | nested path =>
          rw [List.cons_append, loadItems]
          rw [loadItems] at h
          split at h
          · cases h
          · exact ih h

theorem loadItems_error (h : (loader.loadItems load canonical depth items s).1 = .error e) :
    .fail e ∈ items ∨ ∃ before path after s', items = before ++ .nested path :: after
      ∧ loader.loadItems load canonical depth before s = (.ok (), s')
      ∧ (load path s').1 = .error e := by
  induction items generalizing s with
  | nil => cases h
  | cons item items ih =>
      cases item with
      | fail e' =>
          cases h
          exact Or.inl List.mem_cons_self
      | own r =>
          rcases ih h with hfail | ⟨before, path, after, s', rfl, hbefore, herror⟩
          · exact Or.inl (List.mem_cons_of_mem _ hfail)
          · exact Or.inr ⟨.own r :: before, path, after, s', rfl, hbefore, herror⟩
      | nested path =>
          rw [loadItems] at h
          split at h
          · rename_i e' s' hres
            cases h
            exact Or.inr ⟨[], path, items, s, rfl, rfl, congrArg Prod.fst hres⟩
          · rename_i s₁ hres
            rcases ih h with hfail | ⟨before, path', after, s', rfl, hbefore, herror⟩
            · exact Or.inl (List.mem_cons_of_mem _ hfail)
            · refine Or.inr ⟨.nested path :: before, path', after, s', rfl, ?_, herror⟩
              rw [loadItems, hres]
              exact hbefore

/-- A load fails with an error of the include state exactly when a call of `enter` does. -/
theorem loadRecursive_error_iff (hfiles : loader.FailsInFiles) (he : e.IsNesting)
    (s : IncludeState maxDepth × τ) (filePath : PathBuf) (depth : ℕ) :
    (loader.loadRecursive env s filePath depth).1 = .error e
      ↔ ∃ call, Calls env loader s filePath depth call
        ∧ (call.state.enter env call.filePath call.depth).1 = .error e := by
  constructor
  · refine depth_induction maxDepth (P := fun depth => ∀ (s : IncludeState maxDepth × τ) filePath,
      (loader.loadRecursive env s filePath depth).1 = .error e → ∃ call,
        Calls env loader s filePath depth call
          ∧ (call.state.enter env call.filePath call.depth).1 = .error e) ?_ depth s filePath
    intro depth ih s filePath h
    rcases henter : s.1.enter env filePath depth with ⟨_ | _ | canonical, state⟩
    · rw [loadRecursive_of_error henter] at h
      cases h
      exact ⟨_, .self s filePath depth, congrArg Prod.fst henter⟩
    · rw [loadRecursive_of_none henter] at h
      cases h
    · rw [loadRecursive_of_some henter, Prod.map_fst, id, loadFile] at h
      split at h
      · rename_i e' hitems
        cases h
        exact absurd he (hfiles canonical e (Or.inl hitems))
      · rename_i items hitems
        rcases loadItems_error h with hfail | ⟨before, path, after, s', rfl, hbefore, herror⟩
        · exact absurd he (hfiles canonical e (Or.inr ⟨items, hitems, hfail⟩))
        · obtain ⟨call, hcall, hfails⟩ :=
            ih (IncludeState.depth_le_of_enter henter) s' path herror
          exact ⟨call, .nested henter hitems hbefore hcall, hfails⟩
  · rintro ⟨call, hcall, hfails⟩
    induction hcall with
    | self s filePath depth =>
        rcases henter : s.1.enter env filePath depth with ⟨res, state⟩
        have hres : res = .error e := (congrArg Prod.fst henter).symm.trans hfails
        rw [loadRecursive_of_error (henter.trans (congrArg (·, state) hres))]
    | nested henter hitems hbefore hcall ih =>
        have herror := ih hfails
        rw [loadRecursive_of_some henter, Prod.map_fst, id, loadFile, hitems]
        dsimp only
        rw [loadItems_append hbefore, loadItems]
        split
        · rename_i hres
          exact (congrArg Prod.fst hres).symm.trans herror
        · rename_i hres
          cases (congrArg Prod.fst hres).symm.trans herror

/-! ## The order of the rules -/

def takeUp (loader : PolicyLoader ρ τ) (out : List (PathBuf × ℕ × ρ)) (acc : τ) : τ :=
  out.foldl (fun acc e => loader.contribute e.1 e.2.1 e.2.2 acc) acc

theorem takeUp_append (out out' : List (PathBuf × ℕ × ρ)) (acc : τ) :
    takeUp loader (out ++ out') acc = takeUp loader out' (takeUp loader out acc) :=
  List.foldl_append

theorem loadItems_expands (hload : ∀ s path s', load path s = (.ok (), s') →
      ∃ b out, env.canonicalize path = .ok b
        ∧ Inclusion.ExpandsFile (graph env loader) (depth + 1) s.1.visited b out s'.1.visited
        ∧ s'.2 = takeUp loader out s.2)
    (h : loader.loadItems load canonical depth items s = (.ok (), s')) :
    ∃ out, Inclusion.Expands (graph env loader) canonical depth s.1.visited
        (items.filterMap (graphItem env)) out s'.1.visited
      ∧ s'.2 = takeUp loader out s.2 := by
  induction items generalizing s with
  | nil =>
      cases h
      exact ⟨[], .nil .., rfl⟩
  | cons item items ih =>
      cases item with
      | fail e => cases h
      | own r =>
          obtain ⟨out, hout, hacc⟩ := ih h
          exact ⟨_, .own r hout, hacc⟩
      | nested path =>
          rw [loadItems] at h
          split at h
          · cases h
          · rename_i s₁ hres
            obtain ⟨b, out₁, hb, hfile, hacc₁⟩ := hload s path s₁ hres
            obtain ⟨out₂, hout₂, hacc₂⟩ := ih h
            have hitem : graphItem env (.nested path : PolicyItem ρ) = some (.nested b) := by
              rw [graphItem, hb]
            rw [List.filterMap_cons_some hitem]
            refine ⟨out₁ ++ out₂, ?_, by rw [takeUp_append, hacc₂, hacc₁]⟩
            generalize s₁.1.visited = seen₁ at hfile hout₂
            cases hfile with
            | again hseen => exact .again hseen hout₂
            | first hseen hexpands => exact .first hseen hexpands hout₂

theorem loadRecursive_expands (s s' : IncludeState maxDepth × τ) (filePath : PathBuf) (depth : ℕ)
    (h : loader.loadRecursive env s filePath depth = (.ok (), s')) :
    ∃ b out, env.canonicalize filePath = .ok b
      ∧ Inclusion.ExpandsFile (graph env loader) depth s.1.visited b out s'.1.visited
      ∧ s'.2 = takeUp loader out s.2 := by
  refine depth_induction maxDepth (P := fun depth => ∀ (s s' : IncludeState maxDepth × τ) filePath,
    loader.loadRecursive env s filePath depth = (.ok (), s') →
      ∃ b out, env.canonicalize filePath = .ok b
        ∧ Inclusion.ExpandsFile (graph env loader) depth s.1.visited b out s'.1.visited
        ∧ s'.2 = takeUp loader out s.2) ?_ depth s s' filePath h
  intro depth ih s s' filePath h
  have hentered := IncludeState.entered env s.1 filePath depth
  generalize henter : s.1.enter env filePath depth = res at hentered
  cases hentered with
  | unreadable _ =>
      rw [loadRecursive_of_error henter] at h
      cases h
  | tooDeep _ _ =>
      rw [loadRecursive_of_error henter] at h
      cases h
  | onStack _ _ _ cycle =>
      rw [loadRecursive_of_error henter] at h
      cases h
  | @again canonical hcanonical _ _ hvisited =>
      rw [loadRecursive_of_none henter] at h
      cases h
      exact ⟨canonical, [], hcanonical, .again hvisited, rfl⟩
  | @first canonical hcanonical hdepth _ hvisited =>
      rw [loadRecursive_of_some henter, loadFile] at h
      split at h
      · cases h
      · rename_i items hitems
        obtain ⟨hres, hnext⟩ := Prod.mk.inj h
        obtain ⟨out, hout, hacc⟩ := loadItems_expands (fun s path s' => ih hdepth s s' path)
          (Prod.ext hres rfl)
        have hgraph : graph env loader canonical = items.filterMap (graphItem env) := by
          rw [graph, hitems]
        rw [← hgraph] at hout
        rw [← hnext]
        exact ⟨canonical, out, hcanonical, .first hvisited hout, hacc⟩

/-- How a loader loads included files. It leaves the stack as it is. It fails with a cycle or with
too many levels when its traversal meets the stack or exceeds the depth, and the traversal follows
the includes, below the limit. When it succeeds, it has taken up the depth-first expansion: each
file that is reached and was not loaded before has its items in it once. -/
structure LoadsIncludes (env : PolicyEnv Gitignore) (loader : PolicyLoader ρ τ) (maxDepth : ℕ) :
    Prop where
  stack : ∀ (s : IncludeState maxDepth × τ) filePath depth,
    (loader.loadRecursive env s filePath depth).2.1.stack = s.1.stack
  traversal : ∀ (s : IncludeState maxDepth × τ) filePath depth call,
    Calls env loader s filePath depth call → call.depth ≤ max depth (maxDepth + 1)
      ∧ ∃ chain, call.state.stack = s.1.stack ++ chain ∧ call.depth = depth + chain.length
        ∧ ∀ c, env.canonicalize call.filePath = .ok c →
          (chain ++ [c]).IsChain (Inclusion.Includes (graph env loader))
            ∧ ∃ b, env.canonicalize filePath = .ok b ∧ (chain ++ [c]).head? = some b
  cycle : ∀ (s : IncludeState maxDepth × τ) filePath depth,
    (∃ cycle, (loader.loadRecursive env s filePath depth).1 = .error (.includeCycle cycle))
      ↔ ∃ call, Calls env loader s filePath depth call ∧ call.MeetsStack env
  tooDeep : ∀ (s : IncludeState maxDepth × τ) filePath depth,
    (∃ path, (loader.loadRecursive env s filePath depth).1 = .error (.maxDepth path))
      ↔ ∃ call, Calls env loader s filePath depth call ∧ call.ExceedsDepth env
  loaded : ∀ (s s' : IncludeState maxDepth × τ) filePath depth,
    loader.loadRecursive env s filePath depth = (.ok (), s') →
      ∃ b out, env.canonicalize filePath = .ok b
        ∧ Inclusion.ExpandsFile (graph env loader) depth s.1.visited b out s'.1.visited
        ∧ s'.2 = takeUp loader out s.2
        ∧ (Inclusion.Closed (graph env loader) s.1.visited →
          Inclusion.Closed (graph env loader) s'.1.visited
            ∧ (∀ c, c ∈ s'.1.visited ↔ c ∈ s.1.visited
              ∨ Relation.ReflTransGen (Inclusion.Includes (graph env loader)) b c)
            ∧ (∀ c ∈ s'.1.visited, c ∉ s.1.visited → ∃ e, Inclusion.part c out
              = (Inclusion.owns (graph env loader c)).map fun r => (c, e, r))
            ∧ ∀ c, c ∈ s.1.visited ∨ c ∉ s'.1.visited → Inclusion.part c out = [])

theorem loadsIncludes (hfiles : loader.FailsInFiles) (maxDepth : ℕ) :
    LoadsIncludes env loader maxDepth where
  stack := loadRecursive_stack
  traversal _ _ _ _ h := h.includes
  cycle s filePath depth := by
    simp only [EnterCall.meetsStack_iff]
    refine (exists_congr fun cycle =>
      loadRecursive_error_iff hfiles (e := .includeCycle cycle) trivial s filePath depth).trans ?_
    exact ⟨fun ⟨cycle, call, hcall, h⟩ => ⟨call, hcall, cycle, h⟩,
      fun ⟨call, hcall, cycle, h⟩ => ⟨cycle, call, hcall, h⟩⟩
  tooDeep s filePath depth := by
    simp only [EnterCall.exceedsDepth_iff]
    refine (exists_congr fun path =>
      loadRecursive_error_iff hfiles (e := .maxDepth path) trivial s filePath depth).trans ?_
    exact ⟨fun ⟨path, call, hcall, h⟩ => ⟨call, hcall, path, h⟩,
      fun ⟨call, hcall, path, h⟩ => ⟨path, call, hcall, h⟩⟩
  loaded s s' filePath depth h := by
    obtain ⟨b, out, hb, hout, hacc⟩ := loadRecursive_expands s s' filePath depth h
    exact ⟨b, out, hb, hout, hacc, hout.spec⟩

end PolicyLoader

/-! ## Loading from the start -/

open PolicyLoader (graph takeUp)

def canonicalRoot (env : PolicyEnv Gitignore) (workspaceRoot : PathBuf) : PathBuf :=
  (env.canonicalize workspaceRoot).toOption.getD workspaceRoot

def rootArcignore (env : PolicyEnv Gitignore) (workspaceRoot : PathBuf) : PathBuf :=
  (canonicalRoot env workspaceRoot).join (.ofText ".arcignore".toList)

def ignoreLoader (env : PolicyEnv Gitignore) (workspaceRoot : PathBuf) :
    PolicyLoader (IgnoreLine Gitignore) (IgnoreRules Gitignore) :=
  IgnoreLoader env (canonicalRoot env workspaceRoot)

/-- `ArcIgnoreMatcher::load`. -/
def loadIgnore (env : PolicyEnv Gitignore) (workspaceRoot : PathBuf) :
    Except PolicyStoreError (IgnoreRules Gitignore) :=
  if env.exists_ (rootArcignore env workspaceRoot) then
    match (ignoreLoader env workspaceRoot).loadRecursive env (IncludeState.new 32, ⟨[], ∅⟩)
      (rootArcignore env workspaceRoot) 0 with
    | (.error e, _) => .error e
    | (.ok _, s) => .ok s.2
  else .ok ⟨[], ∅⟩

/-- The loop of `load_config_lattice`. -/
def loadCandidates (env : PolicyEnv Gitignore) (workspaceRoot : PathBuf) :
    List (PathBuf × TrustLevel) → IncludeState maxDepth × List (PolicyAtom String) →
      Except PolicyStoreError (IncludeState maxDepth × List (PolicyAtom String))
  | [], s => .ok s
  | (path, trust) :: candidates, s =>
      if env.exists_ path then
        match (ConfigLoader env workspaceRoot trust).loadRecursive env s path 0 with
        | (.error e, _) => .error e
        | (.ok _, s') => loadCandidates env workspaceRoot candidates s'
      else loadCandidates env workspaceRoot candidates s

def isWorkspaceOwnedByCurrentUser (env : PolicyEnv Gitignore) (path : PathBuf) :
    Except String Bool :=
  match env.owner path with
  | .error source => .error source
  | .ok ownerOfPath =>
      if ownerOfPath = env.euid then .ok true
      else
        match env.sudoUid with
        | some sudoUid => .ok (ownerOfPath = sudoUid)
        | none => .ok false

def repoTrustLevel (env : PolicyEnv Gitignore) (workspaceRoot : PathBuf) : TrustLevel :=
  if (isWorkspaceOwnedByCurrentUser env workspaceRoot).toOption.getD false then .repo
  else .untrusted

def configCandidates (env : PolicyEnv Gitignore) (workspaceRoot : PathBuf) :
    List (PathBuf × TrustLevel) :=
  (env.configDir.toList.map fun dir => (dir.join (.ofText "config.toml".toList), TrustLevel.user))
    ++ [((workspaceRoot.join (.ofText ".arc".toList)).join (.ofText "config.toml".toList),
      repoTrustLevel env workspaceRoot)]

def loadConfigLattice (env : PolicyEnv Gitignore) (workspaceRoot : PathBuf) :
    Except PolicyStoreError (List (PolicyAtom String)) :=
  (loadCandidates env workspaceRoot (configCandidates env workspaceRoot)
    (IncludeState.new 32, [])).map Prod.snd

section FromStart

variable {env} {workspaceRoot : PathBuf}

/-- The includes of config files do not depend on the trust. -/
def configGraph (env : PolicyEnv Gitignore) (workspaceRoot : PathBuf) :
    PathBuf → List (Inclusion.Item PathBuf TomlValue) :=
  graph env (ConfigLoader env workspaceRoot .untrusted)

/-- What the expansions of the candidates contribute, each with its trust. -/
def takeUpAll (env : PolicyEnv Gitignore) (workspaceRoot : PathBuf)
    (outs : List (TrustLevel × List (PathBuf × ℕ × TomlValue)))
    (lattice : List (PolicyAtom String)) : List (PolicyAtom String) :=
  outs.foldl (fun lattice out => takeUp (ConfigLoader env workspaceRoot out.1) out.2 lattice)
    lattice

/-- The canonical paths of candidates that exist. -/
def IsStart (env : PolicyEnv Gitignore) (candidates : List (PathBuf × TrustLevel)) (b : PathBuf) :
    Prop :=
  ∃ candidate ∈ candidates, env.exists_ candidate.1 = true ∧ env.canonicalize candidate.1 = .ok b

theorem isStart_cons {path b : PathBuf} {trust : TrustLevel}
    {candidates : List (PathBuf × TrustLevel)} : IsStart env ((path, trust) :: candidates) b
      ↔ (env.exists_ path = true ∧ env.canonicalize path = .ok b) ∨ IsStart env candidates b :=
  List.exists_mem_cons_iff ..

open Inclusion in
theorem loadCandidates_spec {candidates : List (PathBuf × TrustLevel)}
    {s s' : IncludeState maxDepth × List (PolicyAtom String)}
    (h : loadCandidates env workspaceRoot candidates s = .ok s')
    (hclosed : Closed (configGraph env workspaceRoot) s.1.visited) :
    ∃ outs, s'.2 = takeUpAll env workspaceRoot outs s.2
      ∧ (∀ c, c ∈ s'.1.visited ↔ c ∈ s.1.visited ∨ ∃ b, IsStart env candidates b
        ∧ Relation.ReflTransGen (Includes (configGraph env workspaceRoot)) b c)
      ∧ (∀ c ∈ s'.1.visited, c ∉ s.1.visited → ∃ e, part c (outs.flatMap Prod.snd)
        = (owns (configGraph env workspaceRoot c)).map fun r => (c, e, r))
      ∧ ∀ c, c ∈ s.1.visited ∨ c ∉ s'.1.visited → part c (outs.flatMap Prod.snd) = [] := by
  induction candidates generalizing s with
  | nil =>
      cases h
      refine ⟨[], rfl, fun c => ⟨Or.inl, ?_⟩, fun c hc hnew => absurd hc hnew, fun _ _ => rfl⟩
      rintro (hc | ⟨b, ⟨candidate, hmem, -⟩, -⟩)
      · exact hc
      · cases hmem
  | cons candidate candidates ih =>
      obtain ⟨path, trust⟩ := candidate
      rw [loadCandidates] at h
      split_ifs at h with hexists
      · split at h
        · cases h
        · rename_i s₁ hload
          obtain ⟨b, out, hb, hfile, hacc⟩ := PolicyLoader.loadRecursive_expands s s₁ path 0 hload
          obtain ⟨hclosed₁, hvisited, honce, hnone⟩ := ExpandsFile.spec hfile hclosed
          obtain ⟨outs, hs', hvisited', honce', hnone'⟩ := ih h hclosed₁
          refine ⟨(trust, out) :: outs, ?_, fun c => ?_, fun c hc hnew => ?_, fun c hc => ?_⟩
          · rw [hs', hacc]
            rfl
          · rw [hvisited', hvisited]
            constructor
            · rintro ((hc | hpath) | ⟨b', hstart, hpath⟩)
              · exact Or.inl hc
              · exact Or.inr ⟨b, isStart_cons.mpr (Or.inl ⟨hexists, hb⟩), hpath⟩
              · exact Or.inr ⟨b', isStart_cons.mpr (Or.inr hstart), hpath⟩
            · rintro (hc | ⟨b', hstart, hpath⟩)
              · exact Or.inl (Or.inl hc)
              · rcases isStart_cons.mp hstart with ⟨-, hb'⟩ | hstart
                · obtain rfl : b = b' := Except.ok.inj (hb.symm.trans hb')
                  exact Or.inl (Or.inr hpath)
                · exact Or.inr ⟨b', hstart, hpath⟩
          · rw [List.flatMap_cons, part_append]
            by_cases hc₁ : c ∈ s₁.1.visited
            · rw [hnone' c (Or.inl hc₁), List.append_nil]
              exact honce c hc₁ hnew
            · rw [hnone c (Or.inr hc₁), List.nil_append]
              exact honce' c hc hc₁
          · have hsubset : c ∈ s.1.visited ∨ c ∉ s₁.1.visited := hc.imp_right fun hc hc₁ =>
              hc ((hvisited' c).mpr (Or.inl hc₁))
            have hsubset' : c ∈ s₁.1.visited ∨ c ∉ s'.1.visited := hc.imp_left fun hc =>
              (hvisited c).mpr (Or.inl hc)
            rw [List.flatMap_cons, part_append, hnone c hsubset, hnone' c hsubset']
            rfl
      · obtain ⟨outs, hs', hvisited, honce, hnone⟩ := ih h hclosed
        refine ⟨outs, hs', fun c => (hvisited c).trans (or_congr_right ?_), honce, hnone⟩
        simp only [isStart_cons, hexists, Bool.false_eq_true, false_and, false_or]

theorem closed_new {items : PathBuf → List (Inclusion.Item PathBuf ρ)} :
    Inclusion.Closed items (IncludeState.new maxDepth).visited :=
  fun _ ha => absurd ha (Finset.notMem_empty _)

/-- Both loaders load included files as they should. From the start, the files that are reached
contribute their own items once, in the order of a depth-first expansion. -/
theorem include_loading (env : PolicyEnv Gitignore) (workspaceRoot : PathBuf) :
    (∀ maxDepth, PolicyLoader.LoadsIncludes env (IgnoreLoader env workspaceRoot) maxDepth)
      ∧ (∀ trust maxDepth,
        PolicyLoader.LoadsIncludes env (ConfigLoader env workspaceRoot trust) maxDepth)
      ∧ (∀ acc, loadIgnore env workspaceRoot = .ok acc →
        ∃ out, acc = takeUp (ignoreLoader env workspaceRoot) out ⟨[], ∅⟩
          ∧ Inclusion.HasOnce (graph env (ignoreLoader env workspaceRoot))
            (IsStart env [(rootArcignore env workspaceRoot, .repo)]) out)
      ∧ ∀ lattice, loadConfigLattice env workspaceRoot = .ok lattice →
        ∃ outs, lattice = takeUpAll env workspaceRoot outs []
          ∧ Inclusion.HasOnce (configGraph env workspaceRoot)
            (IsStart env (configCandidates env workspaceRoot)) (outs.flatMap Prod.snd) := by
  refine ⟨PolicyLoader.loadsIncludes ignoreLoader_failsInFiles, fun trust =>
    PolicyLoader.loadsIncludes (configLoader_failsInFiles trust), fun acc hacc => ?_,
    fun lattice hlattice => ?_⟩
  · rw [loadIgnore] at hacc
    split_ifs at hacc with hexists
    · split at hacc
      · cases hacc
      · rename_i s hload
        cases hacc
        obtain ⟨b, out, hb, hfile, hs⟩ := PolicyLoader.loadRecursive_expands _ _ _ _ hload
        obtain ⟨-, hvisited, honce, hnone⟩ := hfile.spec closed_new
        refine ⟨out, hs, .of_expanded (fun c => (hvisited c).trans ⟨?_, ?_⟩)
          (fun c hc => honce c hc (Finset.notMem_empty c)) fun c hc => hnone c (Or.inr hc)⟩
        · rintro (hmem | hpath)
          · exact absurd hmem (Finset.notMem_empty c)
          · exact ⟨b, ⟨_, List.mem_singleton.mpr rfl, hexists, hb⟩, hpath⟩
        · rintro ⟨b', ⟨candidate, hmem, -, hb'⟩, hpath⟩
          cases List.mem_singleton.mp hmem
          obtain rfl : b = b' := Except.ok.inj (hb.symm.trans hb')
          exact Or.inr hpath
    · cases hacc
      refine ⟨[], rfl, fun c => ⟨?_, fun _ => rfl⟩⟩
      rintro ⟨b, ⟨candidate, hmem, hcandidate, -⟩, -⟩
      cases List.mem_singleton.mp hmem
      exact absurd hcandidate hexists
  · rw [loadConfigLattice] at hlattice
    cases hs : loadCandidates env workspaceRoot (configCandidates env workspaceRoot)
        (IncludeState.new 32, []) with
    | error e =>
        rw [hs] at hlattice
        cases hlattice
    | ok s =>
        rw [hs] at hlattice
        cases hlattice
        obtain ⟨outs, hlattice, hvisited, honce, hnone⟩ := loadCandidates_spec hs closed_new
        exact ⟨outs, hlattice, .of_expanded
          (fun c => (hvisited c).trans (or_iff_right (Finset.notMem_empty c)))
          (fun c hc => honce c hc (Finset.notMem_empty c)) fun c hc => hnone c (Or.inr hc)⟩

end FromStart

end ArcVcs
