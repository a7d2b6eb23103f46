import DocImage.Files.Access
import DocImage.Address.Uri

/-!
Remembered addresses of image files. An address is remembered under the place of the file, its
length and time, and the threshold above which files are not inlined; the file's contents are
not compared. An entry is never replaced or dropped, and a failure leaves no entry.
-/

namespace DocImage

/-- What an address is remembered under. -/
structure AddressKey where
  location : Location
  metadata : Metadata
  threshold : Nat
deriving DecidableEq

/-- The addresses remembered so far. -/
structure AddressCache where
  entries : List (AddressKey × Text) := []

/-- The largest file that is inlined, in bytes, unless settings say otherwise. -/
def defaultThreshold : Nat := 150 * 1024

namespace AddressCache

/-- The number of addresses remembered. -/
def size (cache : AddressCache) : Nat :=
  cache.entries.length

/-- Whether nothing is remembered. -/
def isEmpty (cache : AddressCache) : Bool :=
  cache.entries.isEmpty

/-- The address under a key. -/
def get? (cache : AddressCache) (key : AddressKey) : Option Text :=
  cache.entries.lookup key

/-- The cache with an address under a key that has none. -/
def insert (cache : AddressCache) (key : AddressKey) (uri : Text) : AddressCache :=
  ⟨(key, uri) :: cache.entries⟩

end AddressCache

/-- The address of a file of the given length at a place: a file URI if it is longer than the
threshold, and otherwise a data URI with its contents, if they can be read. -/
def makeAddress (location : Location) (length : Nat) (contents : Except FileError Bytes)
    (threshold : Nat) : Except AddressError Text :=
  let path := location.path
  if threshold < length then
    match fileUri? path with
    | some uri => .ok uri
    | none => .error (.noFileUri path)
  else
    match contents with
    | .ok contents => .ok (dataUri (.ofPath path) contents)
    | .error e => .error (.file e)

/-- The address of the image at a path, remembered or new, and the cache after that. -/
def AddressCache.address (cache : AddressCache) (files : Accesses) (path : Path)
    (threshold : Nat) : Except AddressError (Text × AddressCache) :=
  match files.canonicalize path with
  | .error e => .error (.file e)
  | .ok location =>
    match files.metadata location with
    | .error e => .error (.file e)
    | .ok metadata =>
      let key : AddressKey := ⟨location, metadata, threshold⟩
      match cache.get? key with
      | some uri => .ok (uri, cache)
      | none =>
        (makeAddress location metadata.length (files.contents location) threshold).map fun uri =>
          (uri, cache.insert key uri)

end DocImage
