import Mathlib.Tactic
import DocImage.Address.Cache
import DocImage.Proofs.Files.Names

/-!
What asking a cache for an address does, whatever each access to the files meets.

* `address_eq_ok_iff`: there are two ways in which there is an answer. The address is remembered and
  the cache stays as it is, or it is new and remembered from now on; `AddressCache.Gains` is what
  both leave behind.
* `address_eq_error_iff`: there is none if something is wrong with the file
  (`AddressCache.Trouble`): no place is found for it, it has vanished from there, or it is to be
  inlined and cannot be read.
* `address_still_eq_ok_iff`: for files that stay as they are, a new address is that of what the path
  leads to (`newAddress`).
-/

namespace DocImage

/-- The address that is given to something at a place. -/
def newAddress (location : Location) (node : Node) (threshold : Nat) : Except AddressError Text :=
  makeAddress location node.metadata.length (FileTree.contents node) threshold

lemma makeAddress_eq_error_iff {location : Location} {length threshold : Nat}
    {contents : Except FileError Bytes} {e : AddressError} :
    makeAddress location length contents threshold = .error e ↔
      length ≤ threshold ∧ ∃ cause, contents = .error cause ∧ e = .file cause := by
  simp only [makeAddress, fileUri?, location.isAbsolute_path, if_true]
  by_cases hlt : threshold < length
  · simp [hlt]
  · cases contents with
    | error cause => simp [hlt, Nat.not_lt.mp hlt, eq_comm]
    | ok contents => simp [hlt]

/-- The contents of a file, whether it can be read or not. -/
def Node.bytes? : Node → Option Bytes
  | file contents .. => some contents
  | directory .. | link _ => none

/-- Whether this is no file that cannot be read. -/
def Node.isReadable : Node → Bool
  | file _ _ readable => readable
  | directory .. | link _ => true

section NewAddress

variable {location : Location} {node node' : Node} {threshold : Nat} {uri : Text}

/-- A new address depends on the metadata and the contents only, and on whether these can be read.
-/
lemma newAddress_congr (hm : node.metadata = node'.metadata) (hb : node.bytes? = node'.bytes?)
    (hr : node.isReadable = node'.isReadable) :
    newAddress location node threshold = newAddress location node' threshold := by
  have hc : FileTree.contents node = FileTree.contents node' := by
    cases node <;> cases node' <;> simp_all [Node.bytes?, Node.isReadable, FileTree.contents]
  rw [newAddress, newAddress, hm, hc]

/-- What has an address although it cannot be read has it also if it can be read. -/
lemma newAddress_of_isReadable (hm : node.metadata = node'.metadata)
    (hb : node.bytes? = node'.bytes?) (hr : node.isReadable = true → node'.isReadable = true)
    (h : newAddress location node threshold = .ok uri) :
    newAddress location node' threshold = .ok uri := by
  cases hn : node.isReadable with
  | true => rw [← h, newAddress_congr hm hb (hn.trans (hr hn).symm)]
  | false =>
      cases node with
      | directory | link => cases hn
      | file contents modified readable =>
          obtain rfl : readable = false := hn
          -- It was not read, so it is too long to be inlined.
          have hlt : threshold < node'.metadata.length := by
            by_contra hle
            have herror : newAddress location (.file contents modified false) threshold =
                .error (.file .permissionDenied) :=
              makeAddress_eq_error_iff.mpr ⟨hm.symm ▸ Nat.not_lt.mp hle, _, rfl, rfl⟩
            cases h.symm.trans herror
          rw [newAddress, hm] at h
          simp only [newAddress, makeAddress, if_pos hlt] at h ⊢
          exact h

/-- There is only one address with the same metadata and contents. -/
lemma newAddress_unique {uri' : Text} (hm : node.metadata = node'.metadata)
    (hb : node.bytes? = node'.bytes?) (h : newAddress location node threshold = .ok uri)
    (h' : newAddress location node' threshold = .ok uri') : uri' = uri := by
  cases hn : node'.isReadable with
  | true => exact Except.ok.inj (h'.symm.trans (newAddress_of_isReadable hm hb (fun _ => hn) h))
  | false =>
      have hread : node'.isReadable = true → node.isReadable = true := by
        rw [hn]
        nofun
      exact Except.ok.inj ((newAddress_of_isReadable hm.symm hb.symm hread h').symm.trans h)

end NewAddress

/-- What the address of something at a place is remembered under. -/
abbrev AddressKey.of (location : Location) (node : Node) (threshold : Nat) : AddressKey :=
  ⟨location, node.metadata, threshold⟩

namespace AddressCache

lemma get?_insert (cache : AddressCache) (key other : AddressKey) (uri : Text) :
    (cache.insert key uri).get? other = if other = key then some uri else cache.get? other := by
  rw [get?, insert, List.lookup_cons]
  by_cases h : other = key
  · simp [h]
  · rw [if_neg h, beq_false_of_ne h]
    rfl

/-- `cache'` remembers what `cache` does, and at most one address more, under a key that had none.
-/
def Gains (cache cache' : AddressCache) : Prop :=
  cache' = cache ∨ ∃ key uri, cache.get? key = none ∧ cache' = cache.insert key uri

/-- Nothing is forgotten. -/
lemma Gains.get? {cache cache' : AddressCache} (h : cache.Gains cache') {key : AddressKey}
    {uri : Text} (hk : cache.get? key = some uri) : cache'.get? key = some uri := by
  obtain rfl | ⟨other, uri', ho, rfl⟩ := h
  · exact hk
  · have hne : key ≠ other := fun he => by
      rw [he, ho] at hk
      cases hk
    rw [get?_insert, if_neg hne, hk]

/-! ### Asking for an address -/

section Asking

variable {cache cache' : AddressCache} {files : Accesses} {path : Path} {threshold : Nat}
  {location : Location} {metadata : Metadata} {uri : Text}

/-- A path for which no place is found has no address. -/
lemma address_of_canonicalize_error {e : FileError} (hp : files.canonicalize path = .error e) :
    cache.address files path threshold = .error (.file e) := by
  rw [address, hp]

/-- A place at which nothing can be looked up has no address. -/
lemma address_of_metadata_error {e : FileError} (hp : files.canonicalize path = .ok location)
    (hm : files.metadata location = .error e) :
    cache.address files path threshold = .error (.file e) := by
  rw [address, hp]
  simp only [hm]

lemma address_of_get?_eq_some (hp : files.canonicalize path = .ok location)
    (hm : files.metadata location = .ok metadata)
    (hk : cache.get? ⟨location, metadata, threshold⟩ = some uri) :
    cache.address files path threshold = .ok (uri, cache) := by
  rw [address, hp]
  simp only [hm, hk]

lemma address_of_get?_eq_none (hp : files.canonicalize path = .ok location)
    (hm : files.metadata location = .ok metadata)
    (hk : cache.get? ⟨location, metadata, threshold⟩ = none) :
    cache.address files path threshold =
      (makeAddress location metadata.length (files.contents location) threshold).map fun uri =>
        (uri, cache.insert ⟨location, metadata, threshold⟩ uri) := by
  rw [address, hp]
  simp only [hm, hk]

/-- There is an answer if a place is found, something is looked up there, and that has an address,
remembered or new. -/
lemma address_eq_ok_iff :
    cache.address files path threshold = .ok (uri, cache') ↔
      ∃ location metadata, files.canonicalize path = .ok location ∧
        files.metadata location = .ok metadata ∧
        (cache.get? ⟨location, metadata, threshold⟩ = some uri ∧ cache' = cache ∨
          cache.get? ⟨location, metadata, threshold⟩ = none ∧
            makeAddress location metadata.length (files.contents location) threshold = .ok uri ∧
            cache' = cache.insert ⟨location, metadata, threshold⟩ uri) := by
  constructor
  · intro h
    cases hp : files.canonicalize path with
    | error e =>
        rw [address_of_canonicalize_error hp] at h
        cases h
    | ok location =>
        cases hm : files.metadata location with
        | error e =>
            rw [address_of_metadata_error hp hm] at h
            cases h
        | ok metadata =>
            refine ⟨location, metadata, rfl, hm, ?_⟩
            cases hk : cache.get? ⟨location, metadata, threshold⟩ with
            | some known =>
                rw [address_of_get?_eq_some hp hm hk] at h
                cases h
                exact .inl ⟨rfl, rfl⟩
            | none =>
                rw [address_of_get?_eq_none hp hm hk] at h
                obtain ⟨new, hn, hnew⟩ := Except.map_eq_ok_iff.mp h
                cases hnew
                exact .inr ⟨rfl, hn, rfl⟩
  · rintro ⟨location, metadata, hp, hm, ⟨hk, rfl⟩ | ⟨hk, hn, rfl⟩⟩
    · exact address_of_get?_eq_some hp hm hk
    · rw [address_of_get?_eq_none hp hm hk, hn]
      rfl

/-- What is wrong with the file at a path that has no address. -/
inductive Trouble (cache : AddressCache) (files : Accesses) (path : Path) (threshold : Nat) :
    FileError → Prop where
  /-- No place is found for it. -/
  | unplaced {cause : FileError} : files.canonicalize path = .error cause →
    Trouble cache files path threshold cause
  /-- There is nothing at its place any more. -/
  | vanished {location : Location} {cause : FileError} : files.canonicalize path = .ok location →
    files.metadata location = .error cause → Trouble cache files path threshold cause
  /-- It is to be inlined, is not remembered, and cannot be read. -/
  | unreadable {location : Location} {metadata : Metadata} {cause : FileError} :
    files.canonicalize path = .ok location → files.metadata location = .ok metadata →
    cache.get? ⟨location, metadata, threshold⟩ = none → metadata.length ≤ threshold →
    files.contents location = .error cause → Trouble cache files path threshold cause

/-- There is no answer exactly if something is wrong with the file. -/
lemma address_eq_error_iff {e : AddressError} :
    cache.address files path threshold = .error e ↔
      ∃ cause, e = .file cause ∧ cache.Trouble files path threshold cause := by
  constructor
  · intro h
    cases hp : files.canonicalize path with
    | error cause =>
        rw [address_of_canonicalize_error hp] at h
        exact ⟨cause, (Except.error.inj h).symm, .unplaced hp⟩
    | ok location =>
        cases hm : files.metadata location with
        | error cause =>
            rw [address_of_metadata_error hp hm] at h
            exact ⟨cause, (Except.error.inj h).symm, .vanished hp hm⟩
        | ok metadata =>
            cases hk : cache.get? ⟨location, metadata, threshold⟩ with
            | some known =>
                rw [address_of_get?_eq_some hp hm hk] at h
                cases h
            | none =>
                rw [address_of_get?_eq_none hp hm hk, Except.map_eq_error_iff,
                  makeAddress_eq_error_iff] at h
                obtain ⟨hl, cause, hc, rfl⟩ := h
                exact ⟨cause, rfl, .unreadable hp hm hk hl hc⟩
  · rintro ⟨cause, rfl, hp | ⟨hp, hm⟩ | ⟨hp, hm, hk, hl, hc⟩⟩
    · exact address_of_canonicalize_error hp
    · exact address_of_metadata_error hp hm
    · rw [address_of_get?_eq_none hp hm hk, Except.map_eq_error_iff, makeAddress_eq_error_iff]
      exact ⟨hl, cause, hc, rfl⟩

/-- An answer leaves at most one address more behind. -/
lemma gains_of_address (h : cache.address files path threshold = .ok (uri, cache')) :
    cache.Gains cache' := by
  obtain ⟨location, metadata, -, -, ⟨-, rfl⟩ | ⟨hk, -, rfl⟩⟩ := address_eq_ok_iff.mp h
  · exact .inl rfl
  · exact .inr ⟨_, _, hk, rfl⟩

end Asking

/-! ### Files that stay as they are -/

section Still

variable {cache cache' : AddressCache} {tree : FileTree} {path : Path} {threshold : Nat}
  {location : Location} {node : Node} {uri : Text}

/-- A path that leads nowhere has no address. -/
lemma address_still_of_error {e : FileError} (hp : tree.canonicalize path = .error e) :
    cache.address tree path threshold = .error (.file e) :=
  address_of_canonicalize_error (by rw [Accesses.canonicalize_still, hp]; rfl)

lemma address_still_of_get?_eq_some (hp : tree.canonicalize path = .ok (location, node))
    (hk : cache.get? (.of location node threshold) = some uri) :
    cache.address tree path threshold = .ok (uri, cache) :=
  address_of_get?_eq_some (by rw [Accesses.canonicalize_still, hp]; rfl)
    (Accesses.metadata_still hp) hk

lemma address_still_of_get?_eq_none (hp : tree.canonicalize path = .ok (location, node))
    (hk : cache.get? (.of location node threshold) = none) :
    cache.address tree path threshold = (newAddress location node threshold).map fun uri =>
      (uri, cache.insert (.of location node threshold) uri) := by
  rw [address_of_get?_eq_none (by rw [Accesses.canonicalize_still, hp]; rfl)
    (Accesses.metadata_still hp) hk, Accesses.contents_still hp]
  rfl

/-- There is an answer if the path leads to something that has an address, remembered or new. -/
lemma address_still_eq_ok_iff :
    cache.address tree path threshold = .ok (uri, cache') ↔
      ∃ location node, tree.canonicalize path = .ok (location, node) ∧
        (cache.get? (.of location node threshold) = some uri ∧ cache' = cache ∨
          cache.get? (.of location node threshold) = none ∧
            newAddress location node threshold = .ok uri ∧
            cache' = cache.insert (.of location node threshold) uri) := by
  rw [address_eq_ok_iff]
  constructor
  · rintro ⟨location, metadata, hp, hm, h⟩
    rw [Accesses.canonicalize_still] at hp
    obtain ⟨⟨found, node⟩, hf, rfl⟩ := Except.map_eq_ok_iff.mp hp
    replace hp : tree.canonicalize path = .ok (found, node) := hf
    obtain rfl := Except.ok.inj ((Accesses.metadata_still hp).symm.trans hm)
    rw [Accesses.contents_still hp] at h
    exact ⟨found, node, hp, h⟩
  · rintro ⟨location, node, hp, h⟩
    refine ⟨location, node.metadata, ?_, Accesses.metadata_still hp, ?_⟩
    · rw [Accesses.canonicalize_still, hp]
      rfl
    · rw [Accesses.contents_still hp]
      exact h

end Still

end AddressCache

end DocImage
