import ArcVcs.ConflictSides
import ArcVcs.HexIds
import ArcVcs.Lib.Delimited

/-!
# Coordinates as text

`SpacetimeCoordinate::from_uri` splits at the first `@` and the namespace off at the first `/`. The
hash is read by the hash library, whose reader is a parameter here.
-/

namespace ArcVcs.SpacetimeCoordinate

open Git (stripPrefix)

/-- `from_uri`, with `blake3::Hash::from_hex` as a parameter. -/
def fromUri (fromHex : String → Option Blake3Hash) (uri : String) :
    Except String SpacetimeCoordinate :=
  match stripPrefix "arc://".toList uri.toList with
  | none => .error "coordinate must start with 'arc://'"
  | some body =>
      match Reader.upTo '@' body with
      | none => .error "coordinate must include '@<hash>'"
      | some (repoPart, hashHex) =>
          match Reader.upTo '/' repoPart with
          | none => .error "coordinate must include '<namespace>/<repo>'"
          | some (ns, repo) =>
              if '/' ∈ repo then .error "coordinate repo must not contain '/'"
              else if ns = [] ∨ repo = [] then .error "namespace and repo must be non-empty"
              else
                match fromHex (String.ofList hashHex) with
                | none => .error "coordinate hash must be 64 lowercase/uppercase hex chars"
                | some hash => .ok ⟨String.ofList ns, String.ofList repo, hash⟩

def IsName (s : String) : Prop := s ≠ "" ∧ '/' ∉ s.toList ∧ '@' ∉ s.toList

def uriText (ns repo hash : String) : String := "arc://" ++ ns ++ "/" ++ repo ++ "@" ++ hash

variable {fromHex : String → Option Blake3Hash} {uri : String} {c : SpacetimeCoordinate}

theorem toUri_eq (c : SpacetimeCoordinate) : c.toUri = uriText c.ns c.repo c.hash.toHex := rfl

theorem toList_uriText (ns repo hash : String) : (uriText ns repo hash).toList
    = "arc://".toList ++ (ns.toList ++ '/' :: repo.toList ++ '@' :: hash.toList) := by
  simp [uriText, String.toList_append]

/-- **What is accepted, and as which coordinate.** -/
theorem fromUri_eq_ok_iff : fromUri fromHex uri = .ok c ↔
    IsName c.ns ∧ IsName c.repo ∧ ∃ hash, uri = uriText c.ns c.repo hash
      ∧ fromHex hash = some c.hash := by
  constructor
  · intro h
    rw [fromUri] at h
    split at h
    · cases h
    rename_i body hbody
    split at h
    · cases h
    rename_i repoPart hashHex hrepoPart
    split at h
    · cases h
    rename_i ns repo hns
    split_ifs at h with hslash hempty
    split at h
    · cases h
    rename_i hash hhash
    cases h
    obtain ⟨hat, rfl⟩ := Reader.upTo_eq_some_iff.mp hrepoPart
    obtain ⟨hslash', rfl⟩ := Reader.upTo_eq_some_iff.mp hns
    obtain ⟨hns', hrepo'⟩ := not_or.mp hempty
    rw [List.mem_append, List.mem_cons, not_or, not_or] at hat
    refine ⟨⟨?_, ?_, ?_⟩, ⟨?_, ?_, ?_⟩, String.ofList hashHex, ?_, hhash⟩
    · exact fun heq => hns' (String.ofList_inj.mp heq)
    · rwa [String.toList_ofList]
    · rw [String.toList_ofList]
      exact hat.1
    · exact fun heq => hrepo' (String.ofList_inj.mp heq)
    · rwa [String.toList_ofList]
    · rw [String.toList_ofList]
      exact hat.2.2
    · rw [← String.toList_inj, Git.eq_append_of_stripPrefix hbody, toList_uriText]
      simp
  · rintro ⟨⟨hns, hns', hns''⟩, ⟨hrepo, hrepo', hrepo''⟩, hash, rfl, hhash⟩
    have hat : '@' ∉ c.ns.toList ++ '/' :: c.repo.toList := by
      rw [List.mem_append, List.mem_cons, not_or, not_or]
      exact ⟨hns'', by decide, hrepo''⟩
    rw [fromUri, toList_uriText, Git.stripPrefix_append]
    dsimp only
    rw [Reader.upTo_append_cons hat]
    dsimp only
    rw [Reader.upTo_append_cons hns']
    dsimp only
    rw [if_neg hrepo', if_neg, String.ofList_toList, hhash]
    · dsimp only
      rw [String.ofList_toList, String.ofList_toList]
    · exact not_or.mpr
        ⟨fun h => hns (String.toList_inj.mp h), fun h => hrepo (String.toList_inj.mp h)⟩

/-- **Coordinates round-trip through their text.** The reader of the hash accepts 64 hexadecimal
digits of either case and nothing else, and reads a hash as it is rendered. -/
theorem uri_roundTrips {fromHex : String → Option Blake3Hash}
    (haccepts : ∀ hex, (fromHex hex).isSome ↔ IsHex 64 hex)
    (hrender : ∀ hash : Blake3Hash, fromHex hash.toHex = some hash) :
    (∀ uri c, fromUri fromHex uri = .ok c → fromUri fromHex c.toUri = .ok c)
      ∧ (∀ c : SpacetimeCoordinate, IsName c.ns → IsName c.repo →
        fromUri fromHex c.toUri = .ok c)
      ∧ ∀ uri, (∃ c, fromUri fromHex uri = .ok c) ↔ ∃ ns repo hash, IsName ns ∧ IsName repo
        ∧ IsHex 64 hash ∧ uri = uriText ns repo hash := by
  have hround (c : SpacetimeCoordinate) (hns : IsName c.ns) (hrepo : IsName c.repo) :
      fromUri fromHex c.toUri = .ok c :=
    fromUri_eq_ok_iff.mpr ⟨hns, hrepo, c.hash.toHex, toUri_eq c, hrender c.hash⟩
  refine ⟨fun uri c h => ?_, hround, fun uri => ⟨?_, ?_⟩⟩
  · obtain ⟨hns, hrepo, -⟩ := fromUri_eq_ok_iff.mp h
    exact hround c hns hrepo
  · rintro ⟨c, h⟩
    obtain ⟨hns, hrepo, hash, huri, hhash⟩ := fromUri_eq_ok_iff.mp h
    have hhex := (haccepts hash).mp (by rw [hhash]; rfl)
    exact ⟨c.ns, c.repo, hash, hns, hrepo, hhex, huri⟩
  · rintro ⟨ns, repo, hash, hns, hrepo, hhex, huri⟩
    obtain ⟨value, hvalue⟩ := Option.isSome_iff_exists.mp ((haccepts hash).mpr hhex)
    exact ⟨⟨ns, repo, value⟩, fromUri_eq_ok_iff.mpr ⟨hns, hrepo, hash, huri, hvalue⟩⟩

theorem isSome_fromHex_iff (hex : String) : (Revset.fromHex hex).isSome ↔ IsHex 64 hex := by
  have heq : Revset.fromHex hex = if (utf8 hex).length ≠ 64 then none
      else (hexBytes digitPair (utf8 hex)).map Blake3Hash.ofBytes := rfl
  rw [heq]
  constructor
  · intro h
    by_cases hlength : (utf8 hex).length = 64
    · rw [if_neg (not_not.mpr hlength), Option.isSome_map] at h
      obtain ⟨out, hout⟩ := Option.isSome_iff_exists.mp h
      have hhex := (hexBytes_digitPair_spec hout).1
      rwa [← hhex.exists_hexBytes.1, hlength] at hhex
    · rw [if_pos hlength] at h
      cases h
  · intro h
    obtain ⟨hlength, out, hout⟩ := @IsHex.exists_hexBytes _ 32 h
    rw [if_neg (not_not.mpr hlength), hout]
    rfl

theorem fromHex_toHex (hash : Blake3Hash) : Revset.fromHex hash.toHex = some hash := by
  have htext : hash.toHex = hexText hash.asBytes := by
    rw [← toHex_ofBytes hash.length_asBytes, Bincode.ofBytes_asBytes]
  obtain ⟨hbytes, hlength⟩ := hexBytes_hexText hash.asBytes
  rw [hash.length_asBytes] at hlength
  have heq : Revset.fromHex (hexText hash.asBytes)
      = if (utf8 (hexText hash.asBytes)).length ≠ 64 then none
        else (hexBytes digitPair (utf8 (hexText hash.asBytes))).map Blake3Hash.ofBytes := rfl
  rw [htext, heq, if_neg (not_not.mpr hlength), hbytes, Option.map_some, Bincode.ofBytes_asBytes]

/-- A reader that decodes the digits round-trips the coordinates. -/
theorem uri_roundTrips_fromHex :
    fromUri Revset.fromHex (toUri ⟨"acme", "tools", 10⟩) = .ok ⟨"acme", "tools", 10⟩
      ∧ ∃ c, fromUri Revset.fromHex (uriText "acme" "tools" (Blake3Hash.toHex 10)) = .ok c := by
  obtain ⟨-, hround, haccepts⟩ := uri_roundTrips isSome_fromHex_iff fromHex_toHex
  have hacme : IsName "acme" := ⟨by decide, by decide, by decide⟩
  have htools : IsName "tools" := ⟨by decide, by decide, by decide⟩
  have hhex : IsHex 64 (Blake3Hash.toHex 10) := by
    rw [← isSome_fromHex_iff, fromHex_toHex]
    rfl
  exact ⟨hround _ hacme htools, (haccepts _).mpr ⟨_, _, _, hacme, htools, hhex, rfl⟩⟩

end ArcVcs.SpacetimeCoordinate
