import ArcVcs.GitCommitText
import ArcVcs.Repo
import Mathlib.Data.List.TakeWhile

/-!
# Revisions

`resolve_rev`, and the layout of `.arc/store` that it scans for a hexadecimal prefix. An object
lies in a directory named by the first two digits of its id, so that no name in `.arc/store` is
the id of a change.
-/

namespace ArcVcs

open Git (hexDigit_lt_spec utf8_ofList)
open GitIngress (decimal)

/-- How `resolve_rev` fails. -/
inductive RevError where
  | ancestorCount (query : String)
  | viewLoad (name : String)
  | headAmbiguous (view : String) (heads : ℕ)
  | viewAmbiguous (name : String) (heads : ℕ)
  | noChange (base : String)
  | ambiguousPrefix (base : String) (changes : ℕ)
  | notInCas (id : Blake3Hash)
  | noAncestors (n step : ℕ)
deriving DecidableEq

/-- `str::parse::<usize>`. -/
def parseUsize (s : List Char) : Option ℕ :=
  let inRange (n : ℕ) : Option ℕ := if n < 2 ^ 64 then some n else none
  match s with
  | [] => none
  | '+' :: s => if s = [] then none else (decimal 0 s).bind inRange
  | s => (decimal 0 s).bind inRange

/-- The value of a lowercase digit. -/
def lowerNybble (c : UInt8) : Option ℕ := if 65 ≤ c ∧ c ≤ 70 then none else nybble c

def unhex (s : String) : Option Blake3Hash :=
  if (utf8 s).length ≠ 64 then none
  else
    (hexBytes (fun hi lo => do
      let hi ← lowerNybble hi
      let lo ← lowerNybble lo
      some (16 * hi + lo)) (utf8 s)).map Blake3Hash.ofBytes

def splitSteps (query : String) : Except RevError (String × ℕ) :=
  match query.toList.dropWhile (· ≠ '~') with
  | [] => .ok (query, 0)
  | _ :: steps =>
      match parseUsize steps with
      | none => .error (.ancestorCount query)
      | some n => .ok (String.ofList (query.toList.takeWhile (· ≠ '~')), n)

def parentsByHex (change : Change) : List Blake3Hash :=
  change.deps.sorted.insertionSort fun a b => a.toHex ≤ b.toHex

def onlyHead (heads : Finset Blake3Hash) (ambiguous : ℕ → RevError) : Except RevError Blake3Hash :=
  match heads.sorted with
  | [head] => .ok head
  | _ => .error (ambiguous heads.card)

namespace Repo

/-- The names in `.arc/store` that begin with the base and are ids. -/
def prefixMatches (entries : List String) (base : String) : List Blake3Hash :=
  entries.filterMap fun name => if base.toList.isPrefixOf name.toList then unhex name else none

def resolveBase (s : Repo) (entries : List String) (base : String) : Except RevError Blake3Hash :=
  if base = "HEAD" ∨ base = "@" then
    match s.views.lookup s.head with
    | none => .error (.viewLoad s.head)
    | some heads => onlyHead heads (.headAmbiguous s.head)
  else
    match s.views.lookup base with
    | some heads => onlyHead heads (.viewAmbiguous base)
    | none =>
        match prefixMatches entries base with
        | [] => .error (.noChange base)
        | [id] => .ok id
        | found => .error (.ambiguousPrefix base found.length)

/-- The last `left` of `n` steps to the first parent. -/
def walkParents (store : FMap Blake3Hash Change) (n : ℕ) :
    ℕ → Blake3Hash → Except RevError Blake3Hash
  | 0, current => .ok current
  | left + 1, current =>
      match readChange store current with
      | .error _ => .error (.notInCas current)
      | .ok change =>
          match parentsByHex change with
          | [] => .error (.noAncestors n (n - (left + 1)))
          | next :: _ => walkParents store n left next

/-- `resolve_rev`, where `entries` are the names that `.arc/store` holds. -/
def resolveRev (s : Repo) (entries : List String) (query : String) : Except RevError Blake3Hash :=
  match splitSteps query with
  | .error e => .error e
  | .ok (base, n) =>
      match s.resolveBase entries base with
      | .error e => .error e
      | .ok current => walkParents s.store n n current

end Repo

/-! ## The store on disk -/

/-- `object_path` below `.arc/store`: a directory and the file in it. -/
def objectPath (id : Blake3Hash) : String × String :=
  (String.ofList (id.toHex.toList.take 2), String.ofList (id.toHex.toList.drop 2))

/-- `.arc/store`, the shard directories and the objects in them. -/
structure StoreDir where
  shards : Finset String
  objects : FMap (String × String) Change

namespace StoreDir

def writeChange (dir : StoreDir) (change : Change) : StoreDir where
  shards := insert (objectPath change.id).1 dir.shards
  objects := dir.objects.putOnce (objectPath change.id) change

def removeChange (dir : StoreDir) (id : Blake3Hash) : StoreDir :=
  { dir with objects := dir.objects.erase (objectPath id) }

/-- `remove_dir`, which leaves a directory that is not empty. -/
def removeShard (dir : StoreDir) (name : String) : StoreDir :=
  if ∃ path ∈ dir.objects.keys, path.1 = name then dir
  else { dir with shards := dir.shards.erase name }

/-- The directory after a run of writes and removals, with the changes that it holds. -/
inductive Holds : StoreDir → FMap Blake3Hash Change → Prop
  | new : Holds ⟨∅, ∅⟩ ∅
  | write {dir : StoreDir} {store : FMap Blake3Hash Change} (h : Holds dir store)
      (change : Change) : Holds (dir.writeChange change) (store.putOnce change.id change)
  | remove {dir : StoreDir} {store : FMap Blake3Hash Change} (h : Holds dir store)
      (id : Blake3Hash) : Holds (dir.removeChange id) (store.erase id)
  | removeShard {dir : StoreDir} {store : FMap Blake3Hash Change} (h : Holds dir store)
      (name : String) : Holds (dir.removeShard name) store

end StoreDir

/-! ## Digits -/

theorem mod_pow_eq_of_digits {b m n k : ℕ} (h : ∀ i < k, m / b ^ i % b = n / b ^ i % b) :
    m % b ^ k = n % b ^ k := by
  induction k with
  | zero => rw [pow_zero, Nat.mod_one, Nat.mod_one]
  | succ k ih =>
      rw [Nat.mod_pow_succ, Nat.mod_pow_succ, ih fun i hi => h i (hi.trans k.lt_succ_self),
        h k k.lt_succ_self]

theorem Blake3Hash.toHex_injective : Function.Injective Blake3Hash.toHex := by
  intro x y h
  have hdigits := List.map_inj_left.mp (String.ofList_inj.mp h)
  have hdigit : ∀ m n : Fin 16, hexDigit m = hexDigit n → m = n := by decide
  have hmod : x.toNat % 16 ^ 64 = y.toNat % 16 ^ 64 := by
    refine mod_pow_eq_of_digits fun i hi => ?_
    have hi' := hdigits (63 - i) (List.mem_range.mpr (by omega))
    rw [show 63 - (63 - i) = i by omega] at hi'
    exact congrArg Fin.val (hdigit ⟨_, Nat.mod_lt _ (by omega)⟩ ⟨_, Nat.mod_lt _ (by omega)⟩ hi')
  have hx : x.toNat < 16 ^ 64 := Fin.isLt x
  have hy : y.toNat < 16 ^ 64 := Fin.isLt y
  rw [Nat.mod_eq_of_lt hx, Nat.mod_eq_of_lt hy] at hmod
  exact Fin.ext hmod

theorem objectPath_injective : Function.Injective objectPath := by
  intro x y h
  obtain ⟨hshard, hfile⟩ := Prod.mk.inj h
  apply Blake3Hash.toHex_injective
  rw [← String.toList_inj, ← List.take_append_drop 2 x.toHex.toList, String.ofList_inj.mp hshard,
    String.ofList_inj.mp hfile, List.take_append_drop]

theorem exists_digit_of_mem_toHex {id : Blake3Hash} {c : Char} (h : c ∈ id.toHex.toList) :
    ∃ n < 16, c = Blake3Hash.hexDigit n := by
  rw [Blake3Hash.toHex, String.toList_ofList] at h
  obtain ⟨i, -, rfl⟩ := List.mem_map.mp h
  exact ⟨_, Nat.mod_lt _ (by omega), rfl⟩

theorem length_utf8_digits {s : List Char} (h : ∀ c ∈ s, ∃ n < 16, c = Blake3Hash.hexDigit n) :
    (utf8 (String.ofList s)).length = s.length := by
  rw [utf8_ofList]
  induction s with
  | nil => rfl
  | cons c s ih =>
      obtain ⟨n, hn, rfl⟩ := h c List.mem_cons_self
      obtain ⟨byte, -, -, -, henc, -⟩ := hexDigit_lt_spec hn
      rw [List.flatMap_cons, henc, List.singleton_append, List.length_cons, List.length_cons,
        ih fun c hc => h c (List.mem_cons_of_mem _ hc)]

theorem length_shard (id : Blake3Hash) : (utf8 (objectPath id).1).length = 2 := by
  have hdigits : ∀ c ∈ id.toHex.toList.take 2, ∃ n < 16, c = Blake3Hash.hexDigit n :=
    fun c hc => exists_digit_of_mem_toHex (List.mem_of_mem_take hc)
  rw [objectPath, length_utf8_digits hdigits, List.length_take, Blake3Hash.toHex,
    String.toList_ofList, List.length_map, List.length_range]
  rfl

theorem unhex_shard (id : Blake3Hash) : unhex (objectPath id).1 = none := by
  rw [unhex, length_shard, if_pos (by decide)]

/-! ## What the directory holds -/

namespace StoreDir

variable {dir : StoreDir} {store : FMap Blake3Hash Change}

theorem Holds.lookup (h : Holds dir store) (id : Blake3Hash) :
    dir.objects.lookup (objectPath id) = store.lookup id := by
  induction h generalizing id with
  | new => rfl
  | @write dir store _ change ih =>
      have hkeys : objectPath change.id ∈ dir.objects.keys ↔ change.id ∈ store.keys := by
        rw [FMap.mem_keys_iff, FMap.mem_keys_iff, ih]
      simp only [writeChange, FMap.lookup_putOnce, hkeys, ih, objectPath_injective.eq_iff]
  | remove _ removed ih =>
      simp only [removeChange, FMap.lookup_erase_eq, ih, objectPath_injective.eq_iff]
  | removeShard _ name ih =>
      rw [StoreDir.removeShard]
      split_ifs
      · exact ih id
      · exact ih id

theorem Holds.exists_of_mem_shards (h : Holds dir store) {name : String}
    (hname : name ∈ dir.shards) : ∃ id, name = (objectPath id).1 := by
  induction h with
  | new => simp at hname
  | write _ change ih =>
      rcases Finset.mem_insert.mp hname with rfl | hname
      · exact ⟨_, rfl⟩
      · exact ih hname
  | remove _ _ ih => exact ih hname
  | removeShard _ name ih =>
      unfold StoreDir.removeShard at hname
      split_ifs at hname
      · exact ih hname
      · exact ih (Finset.mem_of_mem_erase hname)

end StoreDir

/-! ## Queries -/

theorem decimal_eq {s : List Char} (h : ∀ c ∈ s, c.isDigit) (n : ℕ) :
    decimal n s = some (Nat.ofDigitChars 10 s n) := by
  induction s generalizing n with
  | nil => rfl
  | cons c s ih =>
      have hc : '0' ≤ c ∧ c ≤ '9' := by
        have hdigit := h c List.mem_cons_self
        rw [Char.isDigit, Bool.and_eq_true, decide_eq_true_eq, decide_eq_true_eq] at hdigit
        exact hdigit
      rw [decimal, if_pos hc, ih fun c hc => h c (List.mem_cons_of_mem _ hc),
        Nat.ofDigitChars_cons]
      rfl

theorem parseUsize_toDigits {n : ℕ} (h : n < 2 ^ 64) : parseUsize (Nat.toDigits 10 n) = some n := by
  have hdigits : ∀ c ∈ Nat.toDigits 10 n, c.isDigit :=
    fun c hc => Nat.isDigit_of_mem_toDigits (by decide) (by decide) hc
  have hdecimal := decimal_eq hdigits 0
  rw [Nat.ofDigitChars_ten_toDigits] at hdecimal
  unfold parseUsize
  split
  · rename_i hnil
    exact absurd hnil Nat.toDigits_ne_nil
  · rename_i s hplus
    have hdigit := hdigits '+' (hplus ▸ List.mem_cons_self)
    exact absurd hdigit (by decide)
  · rw [hdecimal, Option.bind_some, if_pos h]

theorem splitSteps_steps {base : String} (hbase : '~' ∉ base.toList) {n : ℕ} (h : n < 2 ^ 64) :
    splitSteps (base ++ "~" ++ toString n) = .ok (base, n) := by
  have hlist : (base ++ "~" ++ toString n).toList = base.toList ++ '~' :: Nat.toDigits 10 n := by
    simp
  have hbefore : ∀ c ∈ base.toList, (decide (c ≠ '~')) = true := by
    rintro c hc
    exact decide_eq_true fun heq => hbase (heq ▸ hc)
  rw [splitSteps, hlist, List.dropWhile_append_of_pos hbefore, List.takeWhile_append_of_pos hbefore]
  simp [parseUsize_toDigits h]

theorem splitSteps_plain {query : String} (h : '~' ∉ query.toList) :
    splitSteps query = .ok (query, 0) := by
  have hdrop : query.toList.dropWhile (· ≠ '~') = [] := by
    refine List.dropWhile_eq_nil_iff.mpr fun c hc => ?_
    exact decide_eq_true fun heq => h (heq ▸ hc)
  rw [splitSteps, hdrop]

/-! ## Steps to a parent -/

def IsLeastParent (store : FMap Blake3Hash Change) (x y : Blake3Hash) : Prop :=
  ∃ change, Repo.readChange store x = .ok change ∧ y ∈ change.deps
    ∧ ∀ d ∈ change.deps, y.toHex ≤ d.toHex

def LeastParentWalk (store : FMap Blake3Hash Change) : ℕ → Blake3Hash → Blake3Hash → Prop
  | 0, x, y => x = y
  | n + 1, x, y => ∃ z, IsLeastParent store x z ∧ LeastParentWalk store n z y

theorem head?_parentsByHex {change : Change} {y : Blake3Hash} :
    (parentsByHex change).head? = some y
      ↔ y ∈ change.deps ∧ ∀ d ∈ change.deps, y.toHex ≤ d.toHex := by
  have hmem : ∀ d, d ∈ parentsByHex change ↔ d ∈ change.deps := fun d =>
    (List.mem_insertionSort _).trans Finset.mem_sorted
  have hsorted : (parentsByHex change).Pairwise fun a b => a.toHex ≤ b.toHex := by
    have : Std.Total fun a b : Blake3Hash => a.toHex ≤ b.toHex := ⟨fun _ _ => le_total _ _⟩
    have : IsTrans Blake3Hash fun a b => a.toHex ≤ b.toHex := ⟨fun _ _ _ => le_trans⟩
    exact List.pairwise_insertionSort _ _
  simp only [← hmem]
  cases hparents : parentsByHex change with
  | nil => simp
  | cons first rest =>
      rw [hparents, List.pairwise_cons] at hsorted
      have hfirst : ∀ d ∈ first :: rest, first.toHex ≤ d.toHex := by
        intro d hd
        rcases List.mem_cons.mp hd with rfl | hd
        · exact le_rfl
        · exact hsorted.1 d hd
      rw [List.head?_cons, Option.some_inj]
      constructor
      · rintro rfl
        exact ⟨List.mem_cons_self, hfirst⟩
      · rintro ⟨hy, hleast⟩
        exact Blake3Hash.toHex_injective
          (le_antisymm (hfirst y hy) (hleast first List.mem_cons_self))

namespace Repo

variable {s : Repo} {entries : List String}

theorem walkParents_eq_ok_iff {store : FMap Blake3Hash Change} {n left : ℕ} {x y : Blake3Hash} :
    walkParents store n left x = .ok y ↔ LeastParentWalk store left x y := by
  induction left generalizing x with
  | zero => exact Except.ok.injEq .. |>.to_iff
  | succ left ih =>
      rw [walkParents, LeastParentWalk]
      cases hread : readChange store x with
      | error e => simp [IsLeastParent, hread]
      | ok change =>
          have hleast : ∀ z, IsLeastParent store x z ↔ (parentsByHex change).head? = some z := by
            intro z
            rw [head?_parentsByHex, IsLeastParent, hread]
            constructor
            · rintro ⟨_, ⟨⟩, h⟩
              exact h
            · exact fun h => ⟨change, rfl, h⟩
          simp only [hleast]
          cases parentsByHex change with
          | nil => simp
          | cons next rest => simp [ih]

theorem resolveRev_steps {base : String} (hbase : '~' ∉ base.toList) {n : ℕ} (hn : n < 2 ^ 64)
    (y : Blake3Hash) :
    s.resolveRev entries (base ++ "~" ++ toString n) = .ok y
      ↔ ∃ x, s.resolveRev entries base = .ok x ∧ LeastParentWalk s.store n x y := by
  simp only [resolveRev, splitSteps_steps hbase hn, splitSteps_plain hbase]
  cases s.resolveBase entries base with
  | error e => simp
  | ok x => simp [walkParents_eq_ok_iff, LeastParentWalk]

/-- **No name in `.arc/store` is an id.** A hexadecimal prefix is never found. -/
theorem resolveRev_digits {dir : StoreDir} (hdir : dir.Holds s.store)
    (hentries : ∀ name ∈ entries, name ∈ dir.shards) {digits : String}
    (hdigits : ∀ c ∈ digits.toList, ∃ n < 16, c = Blake3Hash.hexDigit n)
    (hview : s.views.lookup digits = none) :
    s.resolveRev entries digits = .error (.noChange digits) := by
  have hdigit : ∀ n : Fin 16, Blake3Hash.hexDigit n ∉ ['~', 'H', '@'] := by decide
  have hnot : ∀ c ∈ ['~', 'H', '@'], c ∉ digits.toList := by
    rintro c hc hmem
    obtain ⟨n, hn, rfl⟩ := hdigits c hmem
    exact hdigit ⟨n, hn⟩ hc
  have hhead : ¬ (digits = "HEAD" ∨ digits = "@") := by
    rintro (rfl | rfl)
    · exact hnot 'H' (by decide) (by decide)
    · exact hnot '@' (by decide) (by decide)
  have hmatches : prefixMatches entries digits = [] := by
    refine List.filterMap_eq_nil_iff.mpr fun name hname => ?_
    obtain ⟨id, rfl⟩ := hdir.exists_of_mem_shards (hentries name hname)
    rw [unhex_shard, ite_self]
  rw [resolveRev, splitSteps_plain (hnot '~' (by decide))]
  simp only [resolveBase, if_neg hhead, hview, hmatches]

/-! ## Main result -/

/-- The stored changes whose ids begin with the digits. -/
def changesWithPrefix (s : Repo) (digits : String) : Finset Blake3Hash :=
  s.store.keys.filter fun id => digits.toList.isPrefixOf id.toHex.toList

/-- What a prefix is to stand for. -/
structure PrefixResolves (s : Repo) (entries : List String) (digits : String) : Prop where
  found : ∀ id, s.resolveRev entries digits = .ok id ↔ s.changesWithPrefix digits = {id}
  ambiguous : (∃ n, s.resolveRev entries digits = .error (.ambiguousPrefix digits n))
    ↔ 2 ≤ (s.changesWithPrefix digits).card
  notFound : s.resolveRev entries digits = .error (.noChange digits)
    ↔ s.changesWithPrefix digits = ∅

/-- What `~N` is to stand for. -/
def StepsResolve (s : Repo) (entries : List String) : Prop :=
  ∀ base : String, '~' ∉ base.toList → ∀ n < 2 ^ 64, ∀ y,
    s.resolveRev entries (base ++ "~" ++ toString n) = .ok y
      ↔ ∃ x, s.resolveRev entries base = .ok x ∧ LeastParentWalk s.store n x y

/-- **Prefixes of ids.** A prefix resolves as it should exactly if no stored change has it. The
steps after it always do. -/
theorem prefix_resolves_iff (s : Repo) {dir : StoreDir} (hdir : dir.Holds s.store)
    {entries : List String} (hentries : ∀ name, name ∈ entries ↔ name ∈ dir.shards)
    {digits : String} (hdigits : ∀ c ∈ digits.toList, ∃ n < 16, c = Blake3Hash.hexDigit n)
    (hview : s.views.lookup digits = none) :
    s.PrefixResolves entries digits ∧ s.StepsResolve entries
      ↔ ∀ id ∈ s.store.keys, ¬ digits.toList <+: id.toHex.toList := by
  have hresolve := resolveRev_digits hdir (fun name => (hentries name).mp) hdigits hview
  have hsteps : s.StepsResolve entries := fun base hbase n hn y => resolveRev_steps hbase hn y
  have hnone : s.changesWithPrefix digits = ∅
      ↔ ∀ id ∈ s.store.keys, ¬ digits.toList <+: id.toHex.toList := by
    simp only [changesWithPrefix, Finset.filter_eq_empty_iff, List.isPrefixOf_iff_prefix]
  rw [and_iff_left hsteps, ← hnone]
  constructor
  · exact fun h => h.notFound.mp hresolve
  · intro hempty
    refine ⟨fun id => ?_, ?_, iff_of_true hresolve hempty⟩
    · simp [hresolve, hempty]
    · simp [hresolve, hempty]

def withChange (change : Change) : Repo :=
  { init with store := Finmap.singleton change.id change }

theorem keys_withChange (change : Change) : (withChange change).store.keys = {change.id} :=
  Finmap.keys_singleton ..

theorem holds_withChange (change : Change) :
    ((⟨∅, ∅⟩ : StoreDir).writeChange change).Holds (withChange change).store :=
  .write .new change

theorem shards_withChange {name : String} :
    name ∈ ["00"] ↔ name ∈ ((⟨∅, ∅⟩ : StoreDir).writeChange (Change.bare 1 ∅ [])).shards := by
  have hshard : (objectPath 1).1 = "00" := by decide
  rw [StoreDir.writeChange, Change.bare, hshard, List.mem_singleton, Finset.mem_insert,
    or_iff_left (Finset.notMem_empty name)]

/-- A digit that begins no id. -/
theorem prefix_resolves_unused :
    let s := withChange (Change.bare 1 ∅ [])
    let digits := String.ofList ['f']
    s.PrefixResolves ["00"] digits ∧ s.StepsResolve ["00"] := by
  intro s digits
  refine (prefix_resolves_iff s (holds_withChange _) (fun _ => shards_withChange) ?_ rfl).mpr ?_
  · rintro c hc
    obtain rfl : c = 'f' := by simpa [digits] using hc
    exact ⟨15, by decide, by decide⟩
  · have hfirst : Blake3Hash.toHex 1 = String.ofList ('0' :: (Blake3Hash.toHex 1).toList.tail) := by
      decide
    intro id hid
    rw [keys_withChange, Finset.mem_singleton] at hid
    obtain rfl : id = 1 := hid
    rw [hfirst, String.toList_ofList, String.toList_ofList]
    simp

/-- The only change of a repository is not found by its full id. -/
theorem full_id_not_found :
    let s := withChange (Change.bare 1 ∅ [])
    let digits := Blake3Hash.toHex 1
    ((⟨∅, ∅⟩ : StoreDir).writeChange (Change.bare 1 ∅ [])).Holds s.store
      ∧ s.views.lookup digits = none ∧ s.changesWithPrefix digits = {1}
      ∧ s.resolveRev ["00"] digits = .error (.noChange digits) := by
  intro s digits
  have hview : s.views.lookup digits = none := by decide
  refine ⟨holds_withChange _, hview, ?_, ?_⟩
  · have hprefix : digits.toList.isPrefixOf (Blake3Hash.toHex 1).toList = true :=
      List.isPrefixOf_iff_prefix.mpr List.prefix_rfl
    rw [changesWithPrefix, keys_withChange, Finset.filter_singleton]
    exact if_pos hprefix
  · exact resolveRev_digits (holds_withChange _) (fun _ => shards_withChange.mp)
      (fun _ => exists_digit_of_mem_toHex) hview

end Repo

end ArcVcs
